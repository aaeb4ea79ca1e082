import Stencil.Header.Descent
import Stencil.Proofs.Header.Grammar

/-!
# Readings by choices agree

Whatever a reading by choices takes for a header spells that header, and of the two ways to go on
at a spare word one succeeds if a header is spelled. As the tokens spell one header at most, it
does not matter which way is tried first (`run_header_eq_some_iff`).
-/

namespace Stencil

namespace Header

namespace Descent

variable {α β : Type} {p q : Descent α} {tokens rest : List Token} {name : String} {kind : Kind}
  {fields : Descent Kind} {header : Header}

/-! ### Steps -/

theorem run_bind_eq_some {f : α → Descent β} {r : β × List Token} :
    (p >>= f).run tokens = some r ↔
      ∃ a more, p.run tokens = some (a, more) ∧ (f a).run more = some r := by
  rw [StateT.run_bind, Option.bind_eq_bind, Option.bind_eq_some_iff, Prod.exists]

theorem run_pure_eq_some {a b : α} :
    (pure a : Descent α).run tokens = some (b, rest) ↔ b = a ∧ rest = tokens := by
  simp [eq_comm]

/-- A choice takes what its first alternative takes, and if that fails what the second does. -/
theorem run_orElse (p q : Descent α) (tokens : List Token) :
    (p <|> q).run tokens = (p.run tokens).or (q.run tokens) := by
  change (p.run tokens <|> q.run tokens) = _
  cases p.run tokens <;> rfl

theorem run_orElse_cases {r : α × List Token} (h : (p <|> q).run tokens = some r) :
    p.run tokens = some r ∨ q.run tokens = some r := by
  rw [run_orElse, Option.or_eq_some_iff] at h
  rcases h with h | ⟨-, h⟩
  · exact .inl h
  · exact .inr h

theorem isSome_run_orElse :
    ((p <|> q).run tokens).isSome = ((p.run tokens).isSome || (q.run tokens).isSome) := by
  rw [run_orElse, Option.isSome_or]

theorem run_take_eq_some {result? : Token → Option α} {a : α} :
    (take result?).run tokens = some (a, rest) ↔
      ∃ token, tokens = token :: rest ∧ result? token = some a := by
  cases tokens with
  | nil => simp [take, StateT.run]
  | cons token tokens =>
      simp only [take, StateT.run, Option.map_eq_some_iff, List.cons_eq_cons, Prod.mk.injEq]
      constructor
      · rintro ⟨_, htoken, rfl, rfl⟩
        exact ⟨token, ⟨rfl, rfl⟩, htoken⟩
      · rintro ⟨_, ⟨rfl, rfl⟩, htoken⟩
        exact ⟨a, htoken, rfl, rfl⟩

theorem run_exactly_eq_some {token : Token} {u : Unit} :
    (exactly token).run tokens = some (u, rest) ↔ tokens = token :: rest := by
  simp [exactly, run_take_eq_some]

theorem run_word_eq_some :
    word.run tokens = some (name, rest) ↔ ∃ token, tokens = token :: rest ∧ Names token name :=
  run_take_eq_some

theorem run_integer_eq_some {n : Int32} :
    integer.run tokens = some (n, rest) ↔ tokens = .integer n :: rest := by
  rw [integer, run_take_eq_some]
  constructor
  · rintro ⟨token, rfl, htoken⟩
    cases token <;> simp_all
  · rintro rfl
    exact ⟨_, rfl, rfl⟩

theorem run_finish_eq_some {u : Unit} :
    finish.run tokens = some (u, rest) ↔ tokens = [] ∧ rest = [] := by
  cases tokens <;> simp [finish, StateT.run, eq_comm]

theorem eq_of_run_mark {unique : Bool} (h : mark.run tokens = some (unique, rest)) :
    tokens = markTokens unique ++ rest := by
  rcases run_orElse_cases h with h | h
  · obtain ⟨_, _, hbang, hpure⟩ := run_bind_eq_some.mp h
    obtain ⟨rfl, rfl⟩ := run_pure_eq_some.mp hpure
    exact run_exactly_eq_some.mp hbang
  · obtain ⟨rfl, rfl⟩ := run_pure_eq_some.mp h
    rfl

/-- A mark that is there is taken, and none where another token follows. -/
theorem run_mark {token : Token} (h : token ≠ .bang) (unique : Bool) :
    mark.run (markTokens unique ++ token :: rest) = some (unique, token :: rest) := by
  rw [mark, run_orElse]
  cases unique with
  | true => rfl
  | false =>
      have hnone : (do exactly .bang; return true : Descent Bool).run (token :: rest) = none := by
        simp [exactly, take, StateT.run, StateT.bind, h, bind]
      rw [markTokens, if_neg Bool.false_ne_true, List.nil_append, hnone]
      rfl

/-! ### What is taken spells a header -/

theorem run_named_eq_some :
    (named fields).run tokens = some ((name, kind), rest) ↔
      ∃ token more, tokens = token :: more ∧ Names token name ∧
        fields.run more = some (kind, []) ∧ rest = [] := by
  simp only [named, run_bind_eq_some, run_word_eq_some, run_finish_eq_some, run_pure_eq_some,
    Prod.mk.injEq]
  constructor
  · rintro ⟨_, more, ⟨token, rfl, hname⟩, _, _, hfields, _, _, ⟨rfl, rfl⟩, ⟨rfl, rfl⟩, rfl⟩
    exact ⟨token, more, rfl, hname, hfields, rfl⟩
  · rintro ⟨token, more, rfl, hname, hfields, rfl⟩
    exact ⟨name, more, ⟨token, rfl, hname⟩, kind, [], hfields, (), [], ⟨rfl, rfl⟩, ⟨rfl, rfl⟩, rfl⟩

theorem run_spared_eq_some {r : (String × Kind) × List Token} :
    (spared fields).run tokens = some r ↔
      ∃ token more, tokens = token :: more ∧ (∃ text, Names token text) ∧
        (named fields).run more = some r := by
  simp only [spared, run_bind_eq_some, run_word_eq_some]
  constructor
  · rintro ⟨text, more, ⟨token, rfl, htext⟩, hnamed⟩
    exact ⟨token, more, rfl, ⟨text, htext⟩, hnamed⟩
  · rintro ⟨token, more, rfl, ⟨text, htext⟩, hnamed⟩
    exact ⟨text, more, ⟨token, rfl, htext⟩, hnamed⟩

theorem isSome_run_body (spareFirst : Bool) (fields : Descent Kind) (tokens : List Token) :
    ((body spareFirst fields).run tokens).isSome =
      (((spared fields).run tokens).isSome || ((named fields).run tokens).isSome) := by
  cases spareFirst with
  | false => rw [body, if_neg Bool.false_ne_true, isSome_run_orElse, Bool.or_comm]
  | true => rw [body, if_pos rfl, isSome_run_orElse]

theorem run_body_cases {spareFirst : Bool} {r : (String × Kind) × List Token}
    (h : (body spareFirst fields).run tokens = some r) :
    (spared fields).run tokens = some r ∨ (named fields).run tokens = some r := by
  cases spareFirst with
  | false => exact (run_orElse_cases h).symm
  | true => exact run_orElse_cases h

/-- A name with fields behind it is taken, with a spare word or without, in either order. -/
theorem isSome_run_body_of_spare {spare more : List Token} {token : Token} (hspare : Spare spare)
    (hname : Names token name) (hfields : fields.run more = some (kind, []))
    (spareFirst : Bool) : ((body spareFirst fields).run (spare ++ token :: more)).isSome := by
  have hnamed : (named fields).run (token :: more) = some ((name, kind), []) :=
    run_named_eq_some.mpr ⟨token, more, rfl, hname, hfields, rfl⟩
  rw [isSome_run_body, Bool.or_eq_true]
  rcases hspare with rfl | ⟨word, text, rfl, hword⟩
  · right
    rw [List.nil_append, hnamed]
    rfl
  · left
    rw [List.singleton_append, run_spared_eq_some.mpr ⟨word, _, rfl, ⟨text, hword⟩, hnamed⟩]
    rfl

theorem eq_of_run_body {spareFirst : Bool}
    (h : (body spareFirst fields).run tokens = some ((name, kind), rest)) :
    ∃ spare token more, Spare spare ∧ tokens = spare ++ token :: more ∧ Names token name ∧
      fields.run more = some (kind, []) ∧ rest = [] := by
  rcases run_body_cases h with h | h
  · obtain ⟨word, _, rfl, ⟨text, hword⟩, hnamed⟩ := run_spared_eq_some.mp h
    obtain ⟨token, more, rfl, hname, hfields, rfl⟩ := run_named_eq_some.mp hnamed
    exact ⟨[word], token, more, .inr ⟨word, text, rfl, hword⟩, rfl, hname, hfields, rfl⟩
  · obtain ⟨token, more, rfl, hname, hfields, rfl⟩ := run_named_eq_some.mp h
    exact ⟨[], token, more, .inl rfl, rfl, hname, hfields, rfl⟩

theorem eq_of_run_entityFields (h : entityFields.run tokens = some (kind, rest)) :
    ∃ token category icon, tokens = token :: .integer icon :: rest ∧ Names token category ∧
      kind = .entity category icon := by
  obtain ⟨category, _, hword, h₁⟩ := run_bind_eq_some.mp h
  obtain ⟨icon, _, hinteger, h₂⟩ := run_bind_eq_some.mp h₁
  obtain ⟨token, rfl, hcategory⟩ := run_word_eq_some.mp hword
  obtain rfl := run_integer_eq_some.mp hinteger
  obtain ⟨rfl, rfl⟩ := run_pure_eq_some.mp h₂
  exact ⟨token, category, icon, rfl, hcategory, rfl⟩

theorem run_entityFields {token : Token} {category : String} (h : Names token category)
    (icon : Int32) :
    entityFields.run [token, .integer icon] = some (.entity category icon, []) := by
  refine run_bind_eq_some.mpr ⟨category, _, run_word_eq_some.mpr ⟨token, rfl, h⟩, ?_⟩
  exact run_bind_eq_some.mpr ⟨icon, [], run_integer_eq_some.mpr rfl, rfl⟩

theorem eq_of_run_endpoint {endpoint : Endpoint}
    (h : Descent.endpoint.run tokens = some (endpoint, rest)) :
    ∃ token, tokens = markTokens endpoint.unique ++ token :: rest ∧
      Names token endpoint.category := by
  obtain ⟨unique, _, hmark, h₁⟩ := run_bind_eq_some.mp h
  obtain ⟨category, _, hword, h₂⟩ := run_bind_eq_some.mp h₁
  obtain ⟨token, rfl, hcategory⟩ := run_word_eq_some.mp hword
  obtain ⟨rfl, rfl⟩ := run_pure_eq_some.mp h₂
  exact ⟨token, eq_of_run_mark hmark, hcategory⟩

theorem ne_bang_of_names {token : Token} (h : Names token name) : token ≠ .bang := by
  rintro rfl
  cases h

theorem run_endpoint {token : Token} {category : String} (h : Names token category)
    (unique : Bool) (rest : List Token) :
    endpoint.run (markTokens unique ++ token :: rest) = some (⟨category, unique⟩, rest) := by
  refine run_bind_eq_some.mpr ⟨unique, _, run_mark (ne_bang_of_names h) unique, ?_⟩
  exact run_bind_eq_some.mpr ⟨category, rest, run_word_eq_some.mpr ⟨token, rfl, h⟩, rfl⟩

theorem run_style_eq_some {style : LineStyle} :
    Descent.style.run tokens = some (style, rest) ↔
      tokens = .integer style.base :: .integer style.line :: .integer style.width ::
        .integer style.tip :: rest := by
  simp only [Descent.style, run_bind_eq_some, run_integer_eq_some, run_pure_eq_some]
  constructor
  · rintro ⟨base, _, rfl, line, _, rfl, width, _, rfl, tip, _, rfl, rfl, rfl⟩
    rfl
  · rintro rfl
    exact ⟨_, _, rfl, _, _, rfl, _, _, rfl, _, _, rfl, rfl, rfl⟩

theorem eq_of_run_relationFields (h : relationFields.run tokens = some (kind, rest)) :
    ∃ source target style, kind = .relation source target style ∧
      ∃ sourceToken targetToken,
        tokens = markTokens source.unique ++ sourceToken :: (markTokens target.unique ++
          targetToken :: .integer style.base :: .integer style.line :: .integer style.width ::
            .integer style.tip :: rest) ∧
        Names sourceToken source.category ∧ Names targetToken target.category := by
  obtain ⟨source, _, hfirst, h₁⟩ := run_bind_eq_some.mp h
  obtain ⟨target, _, hsecond, h₂⟩ := run_bind_eq_some.mp h₁
  obtain ⟨style, _, hstyle, h₃⟩ := run_bind_eq_some.mp h₂
  obtain ⟨sourceToken, rfl, hsource⟩ := eq_of_run_endpoint hfirst
  obtain ⟨targetToken, rfl, htarget⟩ := eq_of_run_endpoint hsecond
  obtain rfl := run_style_eq_some.mp hstyle
  obtain ⟨rfl, rfl⟩ := run_pure_eq_some.mp h₃
  exact ⟨source, target, style, rfl, sourceToken, targetToken, rfl, hsource, htarget⟩

theorem run_relationFields {source target : Token} {sourceText targetText : String}
    (hsource : Names source sourceText) (htarget : Names target targetText)
    (sourceUnique targetUnique : Bool) (style : LineStyle) :
    relationFields.run (markTokens sourceUnique ++ source :: (markTokens targetUnique ++
        [target, .integer style.base, .integer style.line, .integer style.width,
          .integer style.tip])) =
      some (.relation ⟨sourceText, sourceUnique⟩ ⟨targetText, targetUnique⟩ style, []) := by
  refine run_bind_eq_some.mpr ⟨_, _, run_endpoint hsource sourceUnique _, ?_⟩
  refine run_bind_eq_some.mpr ⟨_, _, run_endpoint htarget targetUnique _, ?_⟩
  exact run_bind_eq_some.mpr ⟨style, [], run_style_eq_some.mpr rfl, rfl⟩

theorem spells_of_run_relation {spareFirst : Bool}
    (h : (relation spareFirst).run tokens = some (header, rest)) :
    rest = [] ∧ Spells tokens header := by
  obtain ⟨unique, _, hmark, h₁⟩ := run_bind_eq_some.mp h
  obtain ⟨_, _, hkeyword, h₂⟩ := run_bind_eq_some.mp h₁
  obtain ⟨⟨name, kind⟩, _, hbody, h₃⟩ := run_bind_eq_some.mp h₂
  obtain ⟨spare, token, more, hspare, rfl, hname, hfields, rfl⟩ := eq_of_run_body hbody
  obtain ⟨source, target, style, rfl, _, _, rfl, hsource, htarget⟩ :=
    eq_of_run_relationFields hfields
  obtain rfl := run_exactly_eq_some.mp hkeyword
  obtain rfl := eq_of_run_mark hmark
  obtain ⟨rfl, rfl⟩ := run_pure_eq_some.mp h₃
  have hspells := @Spells.relation unique source.unique target.unique _ _ _ _ _ _ _ style.base
    style.line style.width style.tip hspare hname hsource htarget
  exact ⟨rfl, by simpa using hspells⟩

theorem spells_of_run_entity {spareFirst : Bool}
    (h : (entity spareFirst).run tokens = some (header, rest)) :
    rest = [] ∧ Spells tokens header := by
  obtain ⟨unique, _, hmark, h₁⟩ := run_bind_eq_some.mp h
  obtain ⟨text, _, hkind, h₂⟩ := run_bind_eq_some.mp h₁
  obtain ⟨⟨name, kind⟩, _, hbody, h₃⟩ := run_bind_eq_some.mp h₂
  obtain ⟨spare, token, more, hspare, rfl, hname, hfields, rfl⟩ := eq_of_run_body hbody
  obtain ⟨_, category, icon, rfl, hcategory, rfl⟩ := eq_of_run_entityFields hfields
  obtain ⟨first, rfl, hfirst⟩ := run_word_eq_some.mp hkind
  obtain rfl := eq_of_run_mark hmark
  obtain ⟨rfl, rfl⟩ := run_pure_eq_some.mp h₃
  have hspells := @Spells.entity unique _ _ _ _ _ _ _ icon hfirst hspare hname hcategory
  exact ⟨rfl, by simpa using hspells⟩

/-! ### What spells a header is taken -/

theorem isSome_run_bind {p : Descent α} {f : α → Descent β} {a : α} {more : List Token}
    (hp : p.run tokens = some (a, more)) :
    ((p >>= f).run tokens).isSome = ((f a).run more).isSome := by
  rw [StateT.run_bind, hp]
  rfl

theorem isSome_run_entity {kindToken token categoryToken : Token} {spare : List Token}
    {kindText category : String} (hkind : Names kindToken kindText) (hspare : Spare spare)
    (hname : Names token name) (hcategory : Names categoryToken category) (unique : Bool)
    (icon : Int32) (spareFirst : Bool) :
    ((entity spareFirst).run (markTokens unique ++ kindToken ::
      (spare ++ token :: [categoryToken, .integer icon]))).isSome := by
  have hbody := isSome_run_body_of_spare hspare hname (run_entityFields hcategory icon) spareFirst
  obtain ⟨⟨⟨_, _⟩, _⟩, hbody⟩ := Option.isSome_iff_exists.mp hbody
  rw [entity, isSome_run_bind (run_mark (ne_bang_of_names hkind) unique),
    isSome_run_bind (run_word_eq_some.mpr ⟨_, rfl, hkind⟩), isSome_run_bind hbody]
  rfl

theorem isSome_run_relation {token sourceToken targetToken : Token} {spare : List Token}
    {sourceText targetText : String} (hspare : Spare spare) (hname : Names token name)
    (hsource : Names sourceToken sourceText) (htarget : Names targetToken targetText)
    (unique sourceUnique targetUnique : Bool) (style : LineStyle) (spareFirst : Bool) :
    ((relation spareFirst).run (markTokens unique ++ .relation :: (spare ++ token ::
      (markTokens sourceUnique ++ sourceToken :: (markTokens targetUnique ++
        [targetToken, .integer style.base, .integer style.line, .integer style.width,
          .integer style.tip]))))).isSome := by
  have hbody := isSome_run_body_of_spare hspare hname
    (run_relationFields hsource htarget sourceUnique targetUnique style) spareFirst
  obtain ⟨⟨⟨_, _⟩, _⟩, hbody⟩ := Option.isSome_iff_exists.mp hbody
  rw [relation, isSome_run_bind (run_mark (by decide) unique),
    isSome_run_bind (run_exactly_eq_some (u := ()).mpr rfl), isSome_run_bind hbody]
  rfl

theorem isSome_run_header (h : Spells tokens header) (a b : Bool) :
    ((Descent.header a b).run tokens).isSome := by
  rw [Descent.header, isSome_run_orElse, Bool.or_eq_true]
  cases h with
  | @entity unique _ _ _ _ _ _ _ icon hkind hspare hname hcategory =>
      right
      have hsome := isSome_run_entity hkind hspare hname hcategory unique icon b
      simpa using hsome
  | @relation unique sourceUnique targetUnique _ _ _ _ _ _ _ base line width tip hspare hname
      hsource htarget =>
      left
      have hsome := isSome_run_relation hspare hname hsource htarget unique sourceUnique
        targetUnique ⟨base, line, width, tip⟩ a
      simpa using hsome

/-- A reading by choices takes the header that the tokens spell, whatever it tries first. -/
theorem run_header_eq_some_iff {a b : Bool} :
    (Descent.header a b).run tokens = some (header, rest) ↔ rest = [] ∧ Spells tokens header := by
  have hsound {header : Header} {rest : List Token}
      (h : (Descent.header a b).run tokens = some (header, rest)) :
      rest = [] ∧ Spells tokens header := by
    rcases run_orElse_cases h with h | h
    · exact spells_of_run_relation h
    · exact spells_of_run_entity h
  refine ⟨hsound, ?_⟩
  rintro ⟨rfl, hspells⟩
  obtain ⟨⟨found, rest⟩, hfound⟩ := Option.isSome_iff_exists.mp (isSome_run_header hspells a b)
  obtain ⟨rfl, hother⟩ := hsound hfound
  rw [← ofTokens?_eq_some_iff] at hspells hother
  rw [hfound, Option.some.inj (hother.symm.trans hspells)]

end Descent

end Header

end Stencil
