import Mathlib.Data.List.Forall2
import Stencil.Header.Form
import Stencil.Header.Grammar

/-!
# Headers are read by the grammar

Reading the forms one after the other finds the header that `Spells` describes, and no
other (`ofTokens?_eq_some_iff`): what is filled into a form spells its header, each rule of
the grammar is one of the forms, and no tokens fit two forms. Also, tokens begin one of the
forms just when they begin some header (`begins_iff_rests_ne_nil`), so that an error
is not found too early.
-/

namespace Stencil

namespace Header

variable {tokens spare : List Token} {places : List Place} {header : Header}
  {names : List String} {texts : List String × List Int32}

/-! ### Filling places -/

theorem fill?_nil_eq_some : fill? [] tokens = some texts ↔ tokens = [] ∧ texts = ([], []) := by
  cases tokens <;> simp [fill?, eq_comm]

theorem fill?_mark_eq_some {written : Bool} :
    fill? (Place.mark written ++ places) tokens = some texts ↔
      ∃ rest, tokens = markTokens written ++ rest ∧ fill? places rest = some texts := by
  cases written with
  | false => simp [Place.mark, markTokens]
  | true =>
      simp only [Place.mark, markTokens, if_true, List.singleton_append]
      rcases tokens with _ | ⟨_ | _ | _ | _ | _, tokens⟩ <;> simp [fill?]

theorem fill?_relation_eq_some :
    fill? (.relation :: places) tokens = some texts ↔
      ∃ rest, tokens = .relation :: rest ∧ fill? places rest = some texts := by
  rcases tokens with _ | ⟨_ | _ | _ | _ | _, tokens⟩ <;> simp [fill?]

theorem fill?_word_eq_some :
    fill? (.word :: places) tokens = some texts ↔
      ∃ token name rest more, tokens = token :: rest ∧ Names token name ∧
        fill? places rest = some more ∧ texts = (name :: more.1, more.2) := by
  cases tokens with
  | nil => simp [fill?]
  | cons token tokens => simp [fill?, Names, Option.bind_eq_some_iff, eq_comm (b := texts)]

theorem fill?_integer_eq_some :
    fill? (.integer :: places) tokens = some texts ↔
      ∃ n rest more, tokens = .integer n :: rest ∧ fill? places rest = some more ∧
        texts = (more.1, n :: more.2) := by
  rcases tokens with _ | ⟨_ | _ | _ | _ | _, tokens⟩ <;>
    simp [fill?, Option.bind_eq_some_iff, eq_comm (b := texts)]

/-- The tokens for the spare word and the names read from them, by whether it is written. -/
inductive FillsSpare : Bool → List Token → List String → Prop where
  | absent : FillsSpare false [] []
  | present {token : Token} {name : String} (h : Names token name) :
      FillsSpare true [token] [name]

theorem spare_iff : Spare spare ↔ ∃ written names, FillsSpare written spare names := by
  constructor
  · rintro (rfl | ⟨token, name, rfl, hname⟩)
    · exact ⟨false, [], .absent⟩
    · exact ⟨true, [name], .present hname⟩
  · rintro ⟨written, names, h⟩
    cases h with
    | absent => exact .inl rfl
    | present hname => exact .inr ⟨_, _, rfl, hname⟩

theorem fill?_spare_eq_some {written : Bool} :
    fill? (Place.spare written ++ places) tokens = some texts ↔
      ∃ spare names rest more, FillsSpare written spare names ∧ tokens = spare ++ rest ∧
        fill? places rest = some more ∧ texts = (names ++ more.1, more.2) := by
  cases written with
  | false =>
      constructor
      · intro h
        exact ⟨[], [], tokens, texts, .absent, rfl, h, rfl⟩
      · rintro ⟨_, _, rest, more, ⟨⟩, rfl, h, rfl⟩
        exact h
  | true =>
      refine fill?_word_eq_some.trans ⟨?_, ?_⟩
      · rintro ⟨token, name, rest, more, rfl, hname, h, rfl⟩
        exact ⟨[token], [name], rest, more, .present hname, rfl, h, rfl⟩
      · rintro ⟨_, _, rest, more, hspare, rfl, h, rfl⟩
        cases hspare with
        | present hname => exact ⟨_, _, rest, more, rfl, hname, h, rfl⟩

/-! ### Forms and the grammar -/

namespace Form

theorem places_entity (unique spare : Bool) :
    (entity unique spare).places =
      Place.mark unique ++ .word :: (Place.spare spare ++ [.word, .word, .integer]) := by
  simp [places]

theorem places_relation (unique spare sourceUnique targetUnique : Bool) :
    (relation unique spare sourceUnique targetUnique).places =
      Place.mark unique ++ .relation :: (Place.spare spare ++ .word ::
        (Place.mark sourceUnique ++ .word :: (Place.mark targetUnique ++
          [.word, .integer, .integer, .integer, .integer]))) := by
  simp [places]

end Form

theorem spells_of_read {form : Form} (h : form.read tokens = some header) :
    Spells tokens header := by
  obtain ⟨texts, hfill, hheader⟩ := Option.bind_eq_some_iff.mp h
  cases form with
  | entity unique spare =>
      rw [Form.places_entity] at hfill
      obtain ⟨_, rfl, h₁⟩ := fill?_mark_eq_some.mp hfill
      obtain ⟨kind, kindText, _, _, rfl, hkind, h₂, rfl⟩ := fill?_word_eq_some.mp h₁
      obtain ⟨_, _, _, _, hspare, rfl, h₃, rfl⟩ := fill?_spare_eq_some.mp h₂
      obtain ⟨name, nameText, _, _, rfl, hname, h₄, rfl⟩ := fill?_word_eq_some.mp h₃
      obtain ⟨category, categoryText, _, _, rfl, hcategory, h₅, rfl⟩ := fill?_word_eq_some.mp h₄
      obtain ⟨icon, _, _, rfl, h₆, rfl⟩ := fill?_integer_eq_some.mp h₅
      obtain ⟨rfl, rfl⟩ := fill?_nil_eq_some.mp h₆
      obtain rfl : ⟨nameText, unique, .entity categoryText icon⟩ = header := by
        cases hspare <;> exact Option.some.inj hheader
      rw [← List.cons_append, ← List.append_assoc]
      exact .entity hkind (spare_iff.mpr ⟨_, _, hspare⟩) hname hcategory
  | relation unique spare sourceUnique targetUnique =>
      rw [Form.places_relation] at hfill
      obtain ⟨_, rfl, h₁⟩ := fill?_mark_eq_some.mp hfill
      obtain ⟨_, rfl, h₂⟩ := fill?_relation_eq_some.mp h₁
      obtain ⟨_, _, _, _, hspare, rfl, h₃, rfl⟩ := fill?_spare_eq_some.mp h₂
      obtain ⟨name, nameText, _, _, rfl, hname, h₄, rfl⟩ := fill?_word_eq_some.mp h₃
      obtain ⟨_, rfl, h₅⟩ := fill?_mark_eq_some.mp h₄
      obtain ⟨source, sourceText, _, _, rfl, hsource, h₆, rfl⟩ := fill?_word_eq_some.mp h₅
      obtain ⟨_, rfl, h₇⟩ := fill?_mark_eq_some.mp h₆
      obtain ⟨target, targetText, _, _, rfl, htarget, h₈, rfl⟩ := fill?_word_eq_some.mp h₇
      obtain ⟨base, _, _, rfl, h₉, rfl⟩ := fill?_integer_eq_some.mp h₈
      obtain ⟨line, _, _, rfl, h₁₀, rfl⟩ := fill?_integer_eq_some.mp h₉
      obtain ⟨width, _, _, rfl, h₁₁, rfl⟩ := fill?_integer_eq_some.mp h₁₀
      obtain ⟨tip, _, _, rfl, h₁₂, rfl⟩ := fill?_integer_eq_some.mp h₁₁
      obtain ⟨rfl, rfl⟩ := fill?_nil_eq_some.mp h₁₂
      obtain rfl : ⟨nameText, unique, .relation ⟨sourceText, sourceUnique⟩
          ⟨targetText, targetUnique⟩ ⟨base, line, width, tip⟩⟩ = header := by
        cases hspare <;> exact Option.some.inj hheader
      have hspells := @Spells.relation unique sourceUnique targetUnique name source target _
        nameText sourceText targetText base line width tip
        (spare_iff.mpr ⟨_, _, hspare⟩) hname hsource htarget
      simpa using hspells

theorem fill?_markTokens (written : Bool) (places : List Place) (tokens : List Token) :
    fill? (Place.mark written ++ places) (markTokens written ++ tokens) = fill? places tokens := by
  cases written <;> rfl

theorem fill?_relation_cons (places : List Place) (tokens : List Token) :
    fill? (.relation :: places) (.relation :: tokens) = fill? places tokens := rfl

theorem fill?_word_cons {token : Token} {name : String} (h : Names token name)
    (places : List Place) (tokens : List Token) :
    fill? (.word :: places) (token :: tokens) =
      (fill? places tokens).map fun texts => (name :: texts.1, texts.2) := by
  rw [Names] at h
  cases hfill : fill? places tokens <;> simp [fill?, h, hfill]

theorem fill?_fillsSpare {written : Bool} (h : FillsSpare written spare names)
    (places : List Place) (tokens : List Token) :
    fill? (Place.spare written ++ places) (spare ++ tokens) =
      (fill? places tokens).map fun texts => (names ++ texts.1, texts.2) := by
  cases h with
  | absent => simp [Place.spare]
  | present hname => exact fill?_word_cons hname places tokens

theorem exists_read_of_spells (h : Spells tokens header) :
    ∃ form : Form, form.read tokens = some header := by
  cases h with
  | @entity unique _ _ _ _ _ _ _ _ hkind hspare hname hcategory =>
      obtain ⟨written, names, hfills⟩ := spare_iff.mp hspare
      refine ⟨.entity unique written, ?_⟩
      rw [Form.read, Form.places_entity, List.append_assoc, fill?_markTokens, List.cons_append,
        fill?_word_cons hkind, fill?_fillsSpare hfills, fill?_word_cons hname,
        fill?_word_cons hcategory]
      cases hfills <;> rfl
  | @relation unique sourceUnique targetUnique _ _ _ _ _ _ _ _ _ _ _ hspare hname hsource htarget =>
      obtain ⟨written, names, hfills⟩ := spare_iff.mp hspare
      refine ⟨.relation unique written sourceUnique targetUnique, ?_⟩
      simp only [Form.read, Form.places_relation, List.append_assoc, List.cons_append,
        fill?_markTokens, fill?_relation_cons, fill?_fillsSpare hfills, fill?_word_cons hname,
        fill?_word_cons hsource, fill?_word_cons htarget]
      cases hfills <;> rfl

/-! ### One form at most -/

/-- Each token can fill its place. -/
def Fits (places : List Place) (tokens : List Token) : Prop :=
  List.Forall₂ (fun place token => place.accepts token = true) places tokens

theorem accepts_word_of_names {token : Token} {name : String} (h : Names token name) :
    Place.word.accepts token = true := by
  cases token <;> first | rfl | exact absurd h (by simp [Names, Token.name?])

theorem fits_of_fill? (h : fill? places tokens = some texts) : Fits places tokens := by
  induction places generalizing tokens texts with
  | nil =>
      obtain ⟨rfl, -⟩ := fill?_nil_eq_some.mp h
      exact .nil
  | cons place places ih =>
      cases place with
      | bang =>
          have hmark : fill? (Place.mark true ++ places) tokens = some texts := h
          obtain ⟨rest, rfl, hrest⟩ := fill?_mark_eq_some.mp hmark
          exact .cons rfl (ih hrest)
      | relation =>
          obtain ⟨rest, rfl, hrest⟩ := fill?_relation_eq_some.mp h
          exact .cons rfl (ih hrest)
      | word =>
          obtain ⟨token, name, rest, more, rfl, hname, hrest, rfl⟩ := fill?_word_eq_some.mp h
          exact .cons (accepts_word_of_names hname) (ih hrest)
      | integer =>
          obtain ⟨n, rest, more, rfl, hrest, rfl⟩ := fill?_integer_eq_some.mp h
          exact .cons rfl (ih hrest)

/-- Whether some token can fill both places. -/
def Place.meets : Place → Place → Bool
  | word, integer | integer, word => true
  | place, other => place == other

theorem Place.meets_of_accepts {place other : Place} {token : Token}
    (h : place.accepts token = true) (hother : other.accepts token = true) :
    place.meets other = true := by
  cases place <;> cases other <;> cases token <;> first | rfl | contradiction

/-- Whether some tokens can fill both lists of places. -/
def meet : List Place → List Place → Bool
  | [], [] => true
  | place :: places, other :: others => place.meets other && meet places others
  | _, _ => false

theorem Fits.meet {others : List Place} (h : Fits places tokens) (hothers : Fits others tokens) :
    meet places others = true := by
  induction h generalizing others with
  | nil =>
      cases hothers
      rfl
  | cons hplace _ ih =>
      cases hothers with
      | cons hother hrest =>
        simp [Header.meet, Place.meets_of_accepts hplace hother, ih hrest]

/-- No tokens can be read in two forms. -/
theorem Form.eq_of_fits {form other : Form} (h : Fits form.places tokens)
    (hother : Fits other.places tokens) : form = other := by
  -- The forms are few enough for their places to be compared pair by pair.
  have hall : ∀ form ∈ Form.all, ∀ other ∈ Form.all,
      Header.meet form.places other.places = true → form = other := by decide
  exact hall form form.mem_all other other.mem_all (h.meet hother)

theorem Form.fits_of_read {form : Form} (h : form.read tokens = some header) :
    Fits form.places tokens := by
  obtain ⟨texts, hfill, -⟩ := Option.bind_eq_some_iff.mp h
  exact fits_of_fill? hfill

/-- The header read from tokens is the one that they spell. -/
theorem ofTokens?_eq_some_iff : ofTokens? tokens = some header ↔ Spells tokens header := by
  constructor
  · intro h
    obtain ⟨form, -, hread⟩ := List.exists_of_findSome?_eq_some h
    exact spells_of_read hread
  · intro h
    obtain ⟨form, hread⟩ := exists_read_of_spells h
    cases hfound : ofTokens? tokens with
    | none =>
        have hnone := List.findSome?_eq_none_iff.mp hfound form form.mem_all
        rw [hread] at hnone
        contradiction
    | some found =>
        obtain ⟨other, -, hother⟩ := List.exists_of_findSome?_eq_some hfound
        obtain rfl := Form.eq_of_fits (Form.fits_of_read hother) (Form.fits_of_read hread)
        rw [← hother, hread]

/-! ### What begins a header -/

/-- The tokens are the first ones of some header. -/
def Begins (tokens : List Token) : Prop := ∃ more header, Spells (tokens ++ more) header

theorem Begins.of_append {more : List Token} (h : Begins (tokens ++ more)) : Begins tokens := by
  obtain ⟨rest, header, hspells⟩ := h
  exact ⟨more ++ rest, header, by rwa [← List.append_assoc]⟩

theorem rest?_eq_some {rest : List Place} :
    rest? places tokens = some rest ↔ ∃ front, places = front ++ rest ∧ Fits front tokens := by
  induction tokens generalizing places with
  | nil => cases places <;> simp [rest?, Fits]
  | cons token tokens ih =>
      cases places with
      | nil => simp [rest?, Fits]
      | cons place places =>
          by_cases hplace : place.accepts token = true
          · simp only [rest?, hplace, if_true, ih]
            constructor
            · rintro ⟨front, rfl, hfits⟩
              exact ⟨place :: front, rfl, .cons hplace hfits⟩
            · rintro ⟨front, hsplit, hfits⟩
              cases hfits with
              | cons _ hfits => exact ⟨_, (List.cons_eq_cons.mp hsplit).2, hfits⟩
          · rw [rest?, if_neg hplace]
            refine iff_of_false (by simp) ?_
            rintro ⟨front, hsplit, hfits⟩
            cases hfits with
            | cons hfirst _ => exact hplace ((List.cons_eq_cons.mp hsplit).1 ▸ hfirst)

theorem names_of_accepts_word {token : Token} (h : Place.word.accepts token = true) :
    ∃ name, Names token name := by
  cases token with
  | word text => exact ⟨text, rfl⟩
  | integer n => exact ⟨toString n.toInt, rfl⟩
  | _ => contradiction

theorem exists_fill?_of_fits (h : Fits places tokens) :
    ∃ texts, fill? places tokens = some texts ∧ texts.1.length = places.count .word ∧
      texts.2.length = places.count .integer := by
  induction h with
  | nil => exact ⟨([], []), rfl, rfl, rfl⟩
  | @cons place token places tokens hplace _ ih =>
      obtain ⟨texts, hfill, hnames, hnumbers⟩ := ih
      match place, token, hplace with
      | .word, token, hplace =>
          obtain ⟨name, hname⟩ := names_of_accepts_word hplace
          refine ⟨(name :: texts.1, texts.2), ?_, by simp [hnames], by simp [hnumbers]⟩
          rw [fill?_word_cons hname, hfill, Option.map_some]
      | .integer, .integer n, _ =>
          refine ⟨(texts.1, n :: texts.2), ?_, by simp [hnames], by simp [hnumbers]⟩
          rw [fill?, hfill]
          rfl
      | .bang, .bang, _ | .relation, .relation, _ =>
          exact ⟨texts, hfill, by simp [hnames], by simp [hnumbers]⟩

theorem Form.exists_header? (form : Form)
    (hnames : texts.1.length = form.places.count .word)
    (hnumbers : texts.2.length = form.places.count .integer) :
    ∃ header, form.header? texts = some header := by
  obtain ⟨names, numbers⟩ := texts
  have hmark (written : Bool) {place : Place} (h : place ≠ .bang) :
      (Place.mark written).count place = 0 := by
    cases written <;> simp [Place.mark, h.symm]
  rcases form with ⟨unique, _ | _⟩ | ⟨unique, _ | _, sourceUnique, targetUnique⟩ <;>
    simp [places, Place.spare, hmark] at hnames hnumbers
  · match names, numbers, hnames, hnumbers with
    | [_, _, _], [_], _, _ => exact ⟨_, rfl⟩
  · match names, numbers, hnames, hnumbers with
    | [_, _, _, _], [_], _, _ => exact ⟨_, rfl⟩
  · match names, numbers, hnames, hnumbers with
    | [_, _, _], [_, _, _, _], _, _ => exact ⟨_, rfl⟩
  · match names, numbers, hnames, hnumbers with
    | [_, _, _, _], [_, _, _, _], _, _ => exact ⟨_, rfl⟩

theorem Form.exists_read_of_fits {form : Form} (h : Fits form.places tokens) :
    ∃ header, form.read tokens = some header := by
  obtain ⟨texts, hfill, hnames, hnumbers⟩ := exists_fill?_of_fits h
  obtain ⟨header, hheader⟩ := form.exists_header? hnames hnumbers
  exact ⟨header, by rw [read, hfill, Option.bind_some, hheader]⟩

/-- A token for the place. -/
def Place.filler : Place → Token
  | bang => .bang
  | relation => .relation
  | word => .word ""
  | integer => .integer 0

theorem fits_filler (places : List Place) : Fits places (places.map Place.filler) := by
  induction places with
  | nil => exact .nil
  | cons place places ih => exact .cons (by cases place <;> rfl) ih

/-- The forms that the tokens begin are all that can be gone on with. -/
theorem begins_iff_rests_ne_nil : Begins tokens ↔ Form.rests tokens ≠ [] := by
  constructor
  · rintro ⟨more, header, hspells⟩
    obtain ⟨form, hread⟩ := exists_read_of_spells hspells
    have hfits := List.forall₂_take_append _ tokens more (Form.fits_of_read hread)
    have hrest : rest? form.places tokens = some (form.places.drop tokens.length) :=
      rest?_eq_some.mpr ⟨_, (List.take_append_drop _ _).symm, hfits⟩
    exact List.ne_nil_of_mem (List.mem_filterMap.mpr ⟨form, form.mem_all, hrest⟩)
  · intro h
    obtain ⟨rest, hmem⟩ := List.exists_mem_of_ne_nil _ h
    obtain ⟨form, -, hrest⟩ := List.mem_filterMap.mp hmem
    obtain ⟨front, hplaces, hfits⟩ := rest?_eq_some.mp hrest
    have hall : Fits form.places (tokens ++ rest.map Place.filler) := by
      rw [hplaces]
      exact List.rel_append hfits (fits_filler rest)
    obtain ⟨header, hread⟩ := Form.exists_read_of_fits hall
    exact ⟨_, header, spells_of_read hread⟩

theorem begins_nil : Begins [] := begins_iff_rests_ne_nil.mpr (by decide)

instance (tokens : List Token) : Decidable (Begins tokens) :=
  decidable_of_iff _ begins_iff_rests_ne_nil.symm

end Header

end Stencil
