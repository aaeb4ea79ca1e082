import Stencil.Proofs.Header.Descent

/-!
# Each header has one reading

A `Reading` says of each token of a header what it is there: a mark, the keyword, the spare word,
the name and so on. It is data and not a proof that the tokens spell a header, so that two readings
of the same tokens would be two. Tokens are accepted just when they have a reading, and then they
have one only (`tokens_injective`).
-/

namespace Stencil

namespace Header

/-- A token that can serve as a name, with the name. -/
structure Word where
  token : Token
  name : String
  names : Names token name

/-- The token says the name. -/
theorem Word.eq_of_token {a b : Word} (h : a.token = b.token) : a = b := by
  obtain ⟨token, name, hname⟩ := a
  obtain ⟨_, name', hname'⟩ := b
  obtain rfl : token = _ := h
  obtain rfl := Option.some.inj (hname.symm.trans hname')
  rfl

/-- What each token of a header is. -/
inductive Reading where
  /-- `[!] W [W] W W I` -/
  | entity (unique : Bool) (kind : Word) (spare? : Option Word) (name category : Word)
      (icon : Int32)
  /-- `[!] relation [W] W [!]W [!]W I I I I` -/
  | relation (unique : Bool) (spare? : Option Word) (name : Word) (sourceUnique : Bool)
      (source : Word) (targetUnique : Bool) (target : Word) (style : LineStyle)

namespace Reading

/-- The token of the spare word, if it is written. -/
def spareTokens (spare? : Option Word) : List Token := (spare?.map (·.token)).toList

/-- The four numbers of a line style. -/
def styleTokens (style : LineStyle) : List Token :=
  [.integer style.base, .integer style.line, .integer style.width, .integer style.tip]

/-- The tokens that are read. -/
def tokens : Reading → List Token
  | entity unique kind spare? name category icon =>
      markTokens unique ++ kind.token :: (spareTokens spare? ++
        [name.token, category.token, .integer icon])
  | relation unique spare? name sourceUnique source targetUnique target style =>
      markTokens unique ++ .relation :: (spareTokens spare? ++ name.token ::
        (markTokens sourceUnique ++ source.token ::
          (markTokens targetUnique ++ target.token :: styleTokens style)))

/-- The header that is read. The kind word and the spare word leave no trace in it. -/
def header : Reading → Header
  | entity unique _ _ name category icon => ⟨name.name, unique, .entity category.name icon⟩
  | relation unique _ name sourceUnique source targetUnique target style =>
      ⟨name.name, unique, .relation ⟨source.name, sourceUnique⟩ ⟨target.name, targetUnique⟩ style⟩

/-- The form of a header that is read so. -/
def form : Reading → Form
  | entity unique _ spare? _ _ _ => .entity unique spare?.isSome
  | relation unique spare? _ sourceUnique _ targetUnique _ _ =>
      .relation unique spare?.isSome sourceUnique targetUnique

variable {r s : Reading}

theorem spare_spareTokens (spare? : Option Word) : Spare (spareTokens spare?) := by
  cases spare? with
  | none => exact .inl rfl
  | some word => exact .inr ⟨word.token, word.name, rfl, word.names⟩

theorem exists_spareTokens {spare : List Token} (h : Spare spare) :
    ∃ spare?, spare = spareTokens spare? := by
  rcases h with rfl | ⟨token, name, rfl, hname⟩
  · exact ⟨none, rfl⟩
  · exact ⟨some ⟨token, name, hname⟩, rfl⟩

theorem spells_iff_exists_reading {tokens : List Token} {header : Header} :
    Spells tokens header ↔ ∃ r : Reading, r.tokens = tokens ∧ r.header = header := by
  constructor
  · intro h
    cases h with
    | @entity unique _ _ _ _ _ _ _ icon hkind hspare hname hcategory =>
        obtain ⟨spare?, rfl⟩ := exists_spareTokens hspare
        exact ⟨.entity unique ⟨_, _, hkind⟩ spare? ⟨_, _, hname⟩ ⟨_, _, hcategory⟩ icon,
          by simp [Reading.tokens], rfl⟩
    | @relation unique sourceUnique targetUnique _ _ _ _ _ _ _ base line width tip hspare hname
        hsource htarget =>
        obtain ⟨spare?, rfl⟩ := exists_spareTokens hspare
        exact ⟨.relation unique spare? ⟨_, _, hname⟩ sourceUnique ⟨_, _, hsource⟩ targetUnique
          ⟨_, _, htarget⟩ ⟨base, line, width, tip⟩, by simp [Reading.tokens, styleTokens], rfl⟩
  · rintro ⟨r, rfl, rfl⟩
    cases r with
    | entity unique kind spare? name category icon =>
        have hspells := @Spells.entity unique _ _ _ _ _ _ _ icon kind.names
          (spare_spareTokens spare?) name.names category.names
        simpa [Reading.tokens, Reading.header] using hspells
    | relation unique spare? name sourceUnique source targetUnique target style =>
        have hspells := @Spells.relation unique sourceUnique targetUnique _ _ _ _ _ _ _ style.base
          style.line style.width style.tip (spare_spareTokens spare?) name.names source.names
          target.names
        simpa [Reading.tokens, Reading.header, styleTokens] using hspells

/-! ### One reading at most -/

theorem fits_mark (written : Bool) : Fits (Place.mark written) (markTokens written) := by
  cases written with
  | false => exact .nil
  | true => exact .cons rfl .nil

theorem fits_spare (spare? : Option Word) :
    Fits (Place.spare spare?.isSome) (spareTokens spare?) := by
  cases spare? with
  | none => exact .nil
  | some word => exact .cons (accepts_word_of_names word.names) .nil

/-- The tokens are those that the form of the reading asks for. -/
theorem fits_tokens (r : Reading) : Fits r.form.places r.tokens := by
  cases r with
  | entity unique kind spare? name category icon =>
      rw [form, Form.places_entity]
      refine List.rel_append (fits_mark unique) (.cons (accepts_word_of_names kind.names) ?_)
      refine List.rel_append (fits_spare spare?) (.cons (accepts_word_of_names name.names) ?_)
      exact .cons (accepts_word_of_names category.names) (.cons rfl .nil)
  | relation unique spare? name sourceUnique source targetUnique target style =>
      rw [form, Form.places_relation]
      refine List.rel_append (fits_mark unique) (.cons rfl ?_)
      refine List.rel_append (fits_spare spare?) (.cons (accepts_word_of_names name.names) ?_)
      refine List.rel_append (fits_mark sourceUnique)
        (.cons (accepts_word_of_names source.names) ?_)
      refine List.rel_append (fits_mark targetUnique)
        (.cons (accepts_word_of_names target.names) ?_)
      exact .cons rfl (.cons rfl (.cons rfl (.cons rfl .nil)))

theorem spare?_eq_of_tokens {spare? spare?' : Option Word} {rest rest' : List Token}
    (hform : spare?.isSome = spare?'.isSome)
    (h : spareTokens spare? ++ rest = spareTokens spare?' ++ rest') :
    spare? = spare?' ∧ rest = rest' := by
  cases spare? with
  | none =>
      cases spare?' with
      | none => exact ⟨rfl, h⟩
      | some _ => cases hform
  | some word =>
      cases spare?' with
      | none => cases hform
      | some word' =>
          obtain ⟨hword, hrest⟩ := List.cons_eq_cons.mp h
          rw [Word.eq_of_token hword]
          exact ⟨rfl, hrest⟩

theorem styleTokens_injective {style style' : LineStyle}
    (h : styleTokens style = styleTokens style') : style = style' := by
  obtain ⟨base, line, width, tip⟩ := style
  obtain ⟨base', line', width', tip'⟩ := style'
  simpa [styleTokens] using h

/-- Two readings of the same tokens are the same: they have one form, and token by token they are
read alike. -/
theorem tokens_injective (h : r.tokens = s.tokens) : r = s := by
  -- The form settles whether a spare word is written. Only then do the words fall into place.
  have hform : r.form = s.form := Form.eq_of_fits r.fits_tokens (h ▸ s.fits_tokens)
  cases r with
  | entity unique kind spare? name category icon =>
      cases s with
      | relation => cases hform
      | entity unique' kind' spare?' name' category' icon' =>
          obtain ⟨rfl, hspare⟩ := Form.entity.inj hform
          obtain ⟨hkind, hrest⟩ := List.cons_eq_cons.mp (List.append_cancel_left h)
          obtain ⟨rfl, hfields⟩ := spare?_eq_of_tokens hspare hrest
          simp only [List.cons.injEq, Token.integer.injEq, and_true] at hfields
          obtain ⟨hname, hcategory, rfl⟩ := hfields
          rw [Word.eq_of_token hkind, Word.eq_of_token hname, Word.eq_of_token hcategory]
  | relation unique spare? name sourceUnique source targetUnique target style =>
      cases s with
      | entity => cases hform
      | relation unique' spare?' name' sourceUnique' source' targetUnique' target' style' =>
          obtain ⟨rfl, hspare, rfl, rfl⟩ := Form.relation.inj hform
          obtain ⟨-, hrest⟩ := List.cons_eq_cons.mp (List.append_cancel_left h)
          obtain ⟨rfl, hfields⟩ := spare?_eq_of_tokens hspare hrest
          obtain ⟨hname, hends⟩ := List.cons_eq_cons.mp hfields
          obtain ⟨hsource, hend⟩ := List.cons_eq_cons.mp (List.append_cancel_left hends)
          obtain ⟨htarget, hstyle⟩ := List.cons_eq_cons.mp (List.append_cancel_left hend)
          rw [Word.eq_of_token hname, Word.eq_of_token hsource, Word.eq_of_token htarget,
            styleTokens_injective hstyle]

end Reading

theorem run'_descent (a b : Bool) (tokens : List Token) :
    (Descent.header a b).run' tokens = ofTokens? tokens := by
  change Option.map Prod.fst ((Descent.header a b).run tokens) = _
  cases hfound : ofTokens? tokens with
  | some header =>
      have hspells := ofTokens?_eq_some_iff.mp hfound
      rw [Descent.run_header_eq_some_iff.mpr ⟨rfl, hspells⟩]
      rfl
  | none =>
      cases hrun : (Descent.header a b).run tokens with
      | none => rfl
      | some result =>
          obtain ⟨-, hspells⟩ := Descent.run_header_eq_some_iff.mp hrun
          rw [ofTokens?_eq_some_iff.mpr hspells] at hfound
          cases hfound

/-- Tokens are a header just when they have a reading, and the header is what is read. They have
one reading at most. So a reading by choices takes the same header whether it first tries the
readings with a spare word or those without, of relations and of entities. -/
theorem read_in_one_way (tokens : List Token) (header : Header) :
    (ofTokens? tokens = some header ↔ ∃ r : Reading, r.tokens = tokens ∧ r.header = header) ∧
      (∀ r s : Reading, r.tokens = tokens → s.tokens = tokens → r = s) ∧
      ∀ relationSpareFirst entitySpareFirst,
        (Descent.header relationSpareFirst entitySpareFirst).run' tokens = ofTokens? tokens := by
  refine ⟨ofTokens?_eq_some_iff.trans Reading.spells_iff_exists_reading, ?_, ?_⟩
  · rintro r s rfl hs
    exact Reading.tokens_injective hs.symm
  · intro a b
    exact run'_descent a b tokens

/-- The token of a number as a name. -/
def Word.ofNumber (n : Int32) : Word := ⟨.integer n, toString n.toInt, rfl⟩

/-- A relation with a spare word, all of whose words are numbers. -/
def numbered : Reading :=
  .relation true (some (.ofNumber 1)) (.ofNumber 2) true (.ofNumber 3) false (.ofNumber 4)
    ⟨5, 6, 7, 8⟩

/-- Of eight numbers with a mark before the third, the first is the spare word. -/
theorem read_in_one_way_numbered :
    ofTokens? [.bang, .relation, .integer 1, .integer 2, .bang, .integer 3, .integer 4, .integer 5,
        .integer 6, .integer 7, .integer 8] =
      some ⟨"2", true, .relation ⟨"3", true⟩ ⟨"4", false⟩ ⟨5, 6, 7, 8⟩⟩ ∧
    (∀ r : Reading, r.tokens = numbered.tokens → r = numbered) ∧
      ∀ a b, (Descent.header a b).run' numbered.tokens = some numbered.header := by
  obtain ⟨hread, hone, hchoice⟩ := read_in_one_way numbered.tokens numbered.header
  have hfound := hread.mpr ⟨numbered, rfl, rfl⟩
  refine ⟨?_, fun r hr => hone r numbered hr rfl, fun a b => (hchoice a b).trans hfound⟩
  have htext : numbered.header =
      ⟨"2", true, .relation ⟨"3", true⟩ ⟨"4", false⟩ ⟨5, 6, 7, 8⟩⟩ := by decide
  rw [← htext]
  exact hfound

end Header

end Stencil
