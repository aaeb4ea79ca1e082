import Mathlib.Algebra.Ring.Parity
import Stencil.Proofs.Text.Blank
import Stencil.Proofs.Text.Cut
import Stencil.Script.Template

/-!
# Templates as pieces

Split at its separators, a template is in turn text and tag. Expansion asks for the tags that have
a text behind them, in order, and puts what comes back in their place (`expand_eq_splitting`). The
proofs go along `recTags`: a text starts with a closed tag behind which it goes on, or it has one
separator at most.
-/

namespace Stencil

namespace Template

/-- The pieces of a text between its separators: in turn text and tag. -/
def pieces (separator : Char) (text : List Char) : List String :=
  (Text.pieces (· == separator) text).map String.ofList

/-- The tags among the pieces that are closed: they have a text behind them. -/
def closedTags : List String → List String
  | _ :: tag :: text :: pieces => tag :: closedTags (text :: pieces)
  | _ => []

/-- The texts among the pieces, with a value in the place of each tag. -/
def fillIn : List String → List String → String
  | text :: _ :: pieces, value :: values => text ++ value ++ fillIn pieces values
  | text :: _, _ => text
  | [], _ => ""

variable {m : Type → Type} [Monad m] {ask : String → m String} {separator : Char} {pos : Nat}
  {text before tag opened after : List Char}

/-- A text has one separator at most, or starts with a closed tag. -/
@[elab_as_elim]
theorem recTags (separator : Char) {motive : List Char → Prop} (text : List Char)
    (plain : ∀ text, separator ∉ text → motive text)
    (opened : ∀ before opened, separator ∉ before → separator ∉ opened →
      motive (before ++ separator :: opened))
    (closed : ∀ before tag after, separator ∉ before → separator ∉ tag → motive after →
      motive (before ++ separator :: (tag ++ separator :: after))) : motive text := by
  induction hlength : text.length using Nat.strong_induction_on generalizing text with
  | _ n ih =>
      cases hcut : Text.cutAt? separator text with
      | none => exact plain text (Text.cutAt?_eq_none_iff.mp hcut)
      | some cut =>
          obtain ⟨before, behind⟩ := cut
          obtain ⟨rfl, hbefore⟩ := Text.cutAt?_eq_some_iff.mp hcut
          cases hcut' : Text.cutAt? separator behind with
          | none => exact opened before behind hbefore (Text.cutAt?_eq_none_iff.mp hcut')
          | some cut' =>
              obtain ⟨tag, after⟩ := cut'
              obtain ⟨rfl, htag⟩ := Text.cutAt?_eq_some_iff.mp hcut'
              refine closed before tag after hbefore htag (ih after.length ?_ after rfl)
              rw [← hlength]
              simp only [List.length_append, List.length_cons]
              omega

/-! ### The pieces -/

theorem beq_eq_false_of_notMem (h : separator ∉ text) : ∀ c ∈ text, (c == separator) = false := by
  rintro c hc
  exact beq_false_of_ne fun heq => h (heq ▸ hc)

theorem pieces_of_notMem (h : separator ∉ text) : pieces separator text = [String.ofList text] := by
  rw [pieces, Text.pieces_eq_singleton (beq_eq_false_of_notMem h)]
  rfl

theorem pieces_append_cons (h : separator ∉ before) (after : List Char) :
    pieces separator (before ++ separator :: after) =
      String.ofList before :: pieces separator after := by
  rw [pieces, Text.pieces_append_cons (beq_eq_false_of_notMem h) (beq_self_eq_true _)]
  rfl

/-- Behind a closed tag the closed tags are those of the rest. -/
theorem closedTags_cons_cons (text tag : String) (separator : Char) (after : List Char) :
    closedTags (text :: tag :: pieces separator after) =
      tag :: closedTags (pieces separator after) := by
  obtain ⟨piece, rest, hpieces⟩ :=
    List.exists_cons_of_ne_nil (Text.pieces_ne_nil (· == separator) after)
  rw [pieces, hpieces]
  rfl

theorem count_append_cons_append_cons (hbefore : separator ∉ before) (htag : separator ∉ tag) :
    (before ++ separator :: (tag ++ separator :: after)).count separator =
      after.count separator + 2 := by
  rw [List.count_append, List.count_cons_self, List.count_append, List.count_cons_self,
    List.count_eq_zero.mpr hbefore, List.count_eq_zero.mpr htag, Nat.zero_add, Nat.zero_add]

/-! ### One step of the expansion -/

theorem expandFrom_of_notMem (h : separator ∉ text) :
    expandFrom ask separator pos text = pure (.ok (String.ofList text)) := by
  rw [expandFrom]
  split
  · rfl
  · next hcut =>
      rw [Text.cutAt?_eq_none h] at hcut
      cases hcut

/-- Behind the first separator it is looked for the one that closes the tag. -/
theorem expandFrom_append_cons (hbefore : separator ∉ before) :
    expandFrom ask separator pos (before ++ separator :: opened) =
      match Text.cutAt? separator opened with
      | none => pure (.error ⟨pos + Text.size before⟩)
      | some (tag, after) => do
          let value ← ask (String.ofList tag)
          let past := Text.size before + Text.size tag + 2 * separator.utf8Size
          let rest ← expandFrom ask separator (pos + past) after
          return rest.map fun rest => String.ofList before ++ value ++ rest := by
  rw [expandFrom]
  split
  · next hcut =>
      rw [Text.cutAt?_append_cons hbefore] at hcut
      cases hcut
  · next hcut =>
      rw [Text.cutAt?_append_cons hbefore] at hcut
      cases hcut
      split <;> simp [*]

theorem expandFrom_opened (hbefore : separator ∉ before) (hopened : separator ∉ opened) :
    expandFrom ask separator pos (before ++ separator :: opened) =
      pure (.error ⟨pos + Text.size before⟩) := by
  rw [expandFrom_append_cons hbefore, Text.cutAt?_eq_none hopened]

theorem expandFrom_closed (hbefore : separator ∉ before) (htag : separator ∉ tag) :
    expandFrom ask separator pos (before ++ separator :: (tag ++ separator :: after)) = do
      let value ← ask (String.ofList tag)
      let rest ← expandFrom ask separator
        (pos + Text.size (before ++ separator :: (tag ++ [separator]))) after
      return rest.map fun rest => String.ofList before ++ value ++ rest := by
  have hsize : Text.size (before ++ separator :: (tag ++ [separator])) =
      Text.size before + Text.size tag + 2 * separator.utf8Size := by
    simp only [Text.size_append, Text.size_cons, Text.size_nil]
    omega
  rw [expandFrom_append_cons hbefore, Text.cutAt?_append_cons htag, hsize]

/-! ### The whole expansion -/

variable [LawfulMonad m]

theorem expandFrom_of_even (heven : Even (text.count separator)) (pos : Nat) :
    expandFrom ask separator pos text = do
      let values ← (closedTags (pieces separator text)).mapM ask
      return .ok (fillIn (pieces separator text) values) := by
  induction text using recTags separator generalizing pos with
  | plain text h => simp [expandFrom_of_notMem h, pieces_of_notMem h, closedTags, fillIn]
  | opened before opened hbefore hopened =>
      rw [List.count_append, List.count_cons_self, List.count_eq_zero.mpr hbefore,
        List.count_eq_zero.mpr hopened] at heven
      exact absurd heven (by decide)
  | closed before tag after hbefore htag ih =>
      rw [count_append_cons_append_cons hbefore htag, Nat.even_add] at heven
      rw [expandFrom_closed hbefore htag, pieces_append_cons hbefore, pieces_append_cons htag,
        closedTags_cons_cons, List.mapM_cons, ih (by simpa using heven)]
      simp only [bind_assoc, pure_bind]
      rfl

theorem exists_expandFrom_of_odd (ask : String → m String)
    (hodd : Odd (text.count separator)) (pos : Nat) :
    ∃ front opened, text = front ++ separator :: opened ∧ separator ∉ opened ∧
      expandFrom ask separator pos text = do
        let _ ← (closedTags (pieces separator text)).mapM ask
        return .error ⟨pos + Text.size front⟩ := by
  induction text using recTags separator generalizing pos with
  | plain text h =>
      rw [List.count_eq_zero.mpr h] at hodd
      exact absurd hodd (by decide)
  | opened before opened hbefore hopened =>
      refine ⟨before, opened, rfl, hopened, ?_⟩
      simp [expandFrom_opened hbefore hopened, pieces_append_cons hbefore,
        pieces_of_notMem hopened, closedTags]
  | closed before tag after hbefore htag ih =>
      rw [count_append_cons_append_cons hbefore htag, Nat.odd_add] at hodd
      have hrest := ih (by simpa using hodd)
        (pos + Text.size (before ++ separator :: (tag ++ [separator])))
      obtain ⟨front, opened, rfl, hopened, hexpand⟩ := hrest
      refine ⟨before ++ separator :: (tag ++ separator :: front), opened, by simp, hopened, ?_⟩
      have hsize : Text.size (before ++ separator :: (tag ++ [separator])) + Text.size front =
          Text.size (before ++ separator :: (tag ++ separator :: front)) := by
        rw [← Text.size_append]
        simp
      rw [expandFrom_closed hbefore htag, pieces_append_cons hbefore, pieces_append_cons htag,
        closedTags_cons_cons, List.mapM_cons, hexpand, Nat.add_assoc, hsize]
      simp only [bind_assoc, pure_bind]
      rfl

/-- With an even number of separators every tag is closed and is asked for once, in order, and the
expansion is the template with the answers in the place of the tags, whatever is in them. With an
odd number the last separator opens a tag that is not closed. The expansion fails for it, when the
tags before it have been asked for. -/
theorem expand_eq_splitting (ask : String → m String) (separator : Char) (template : String) :
    (Even (template.toList.count separator) →
      expand ask separator template = do
        let values ← (closedTags (pieces separator template.toList)).mapM ask
        return .ok (fillIn (pieces separator template.toList) values)) ∧
      (Odd (template.toList.count separator) →
        ∃ front opened, template.toList = front ++ separator :: opened ∧ separator ∉ opened ∧
          expand ask separator template = do
            let _ ← (closedTags (pieces separator template.toList)).mapM ask
            return .error ⟨Text.size front⟩) := by
  refine ⟨fun heven => expandFrom_of_even heven 0, fun hodd => ?_⟩
  obtain ⟨front, opened, htemplate, hopened, hexpand⟩ :=
    exists_expandFrom_of_odd ask hodd 0
  refine ⟨front, opened, htemplate, hopened, ?_⟩
  rw [expand, hexpand, Nat.zero_add]

/-- Notes what it is asked for, and answers with a separator in front of it. -/
def echo (tag : String) : StateM (List String) String := fun asked => ("→" ++ tag, asked ++ [tag])

/-- A separator of three bytes, an empty tag, a separator in an answer, and a tag that is not
closed. -/
theorem expand_eq_splitting_echo :
    LawfulMonad (StateM (List String)) ∧
      Even ("a→x→b→→".toList.count '→') ∧ Odd ("é→x→b→c".toList.count '→') ∧
      (expand echo '→' "a→x→b→→").run [] = (.ok "a→xb→", ["x", ""]) ∧
      (expand echo '→' "é→x→b→c").run [] = (.error ⟨10⟩, ["x"]) := by
  have heven : Even ("a→x→b→→".toList.count '→') := by decide
  have hodd : Odd ("é→x→b→c".toList.count '→') := by decide
  refine ⟨inferInstance, heven, hodd, ?_, ?_⟩
  · rw [(expand_eq_splitting echo '→' "a→x→b→→").1 heven]
    rfl
  · obtain ⟨front, opened, htemplate, hopened, hexpand⟩ :=
      (expand_eq_splitting echo '→' "é→x→b→c").2 hodd
    have hsplit : "é→x→b".toList ++ '→' :: ['c'] = front ++ '→' :: opened := htemplate
    obtain ⟨rfl, -⟩ := Text.eq_of_append_cons_eq_append_cons hsplit (by decide) hopened
    rw [hexpand]
    rfl

end Template

end Stencil
