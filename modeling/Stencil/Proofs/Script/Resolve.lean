import Stencil.Proofs.Script.Loops
import Stencil.Proofs.Text.Word
import Stencil.Proofs.World.Values

/-!
# What tokens yield

A token with `env` in it is handed on to the environment, with what stands behind the `env` for a
token; a token without is looked up. `Yields` says so in rules, of which the one for `env` may be
applied again and again. For every token and every instance of a reachable world the rules yield
one text, and this is what the token resolves to (`yields_iff`).
-/

namespace Stencil

namespace Token

/-- One byte of the text is left out. Where no character is one byte long nothing is left. -/
def Skips (text rest : List Char) : Prop :=
  (∃ byte, text = byte ++ rest ∧ Text.size byte = 1) ∨
    rest = [] ∧ ∀ byte more, text = byte ++ more → Text.size byte ≠ 1

/-- The text that stands behind the first `env` of a token and the byte after it. -/
def Behind (token rest : List Char) : Prop :=
  ∃ front back, token = front ++ "env".toList ++ back ∧
    (∀ front' back', token = front' ++ "env".toList ++ back' → front.length ≤ front'.length) ∧
    Skips back rest

variable {token text rest rest' : List Char} {c : Char}

theorem utf8Size_eq_one {byte more : List Char} (h : c :: text = byte ++ more)
    (hsize : Text.size byte = 1) : c.utf8Size = 1 := by
  cases byte with
  | nil => cases hsize
  | cons d byte =>
      obtain ⟨rfl, -⟩ := List.cons_eq_cons.mp h
      have := c.utf8Size_pos
      rw [Text.size_cons] at hsize
      omega

theorem skips_nil : Skips [] [] := by
  refine .inr ⟨rfl, fun byte more h => ?_⟩
  obtain ⟨rfl, -⟩ := List.append_eq_nil_iff.mp h.symm
  exact Nat.zero_ne_one

theorem skips_cons (c : Char) (text : List Char) :
    Skips (c :: text) (if c.utf8Size = 1 then text else []) := by
  split
  · next hsize => exact .inl ⟨[c], rfl, hsize⟩
  · next hsize => exact .inr ⟨rfl, fun byte more h hbyte => hsize (utf8Size_eq_one h hbyte)⟩

theorem Skips.unique (h : Skips text rest) (h' : Skips text rest') : rest = rest' := by
  rcases h with ⟨byte, rfl, hsize⟩ | ⟨rfl, hnone⟩
  · rcases h' with ⟨byte', heq, hsize'⟩ | ⟨-, hnone⟩
    · obtain rfl := Text.eq_of_size_eq heq (hsize.trans hsize'.symm)
      exact List.append_cancel_left heq
    · exact absurd hsize (hnone byte rest rfl)
  · rcases h' with ⟨byte, rfl, hsize⟩ | ⟨rfl, -⟩
    · exact absurd hsize (hnone byte rest' rfl)
    · rfl

theorem Behind.unique (h : Behind token rest) (h' : Behind token rest') : rest = rest' := by
  obtain ⟨front, back, htoken, hfirst, hskips⟩ := h
  obtain ⟨front', back', htoken', hfirst', hskips'⟩ := h'
  have hlength : front.length = front'.length :=
    Nat.le_antisymm (hfirst front' back' htoken') (hfirst' front back htoken)
  rw [htoken, List.append_assoc, List.append_assoc] at htoken'
  obtain ⟨rfl, hback⟩ := List.append_inj htoken' hlength
  obtain rfl := List.append_cancel_left hback
  exact hskips.unique hskips'

/-- At the head of a text. -/
theorem exists_afterEnv?_append (back : List Char) :
    ∃ rest, afterEnv? ("env".toList ++ back) = some rest ∧ Skips back rest := by
  cases back with
  | nil => exact ⟨[], rfl, skips_nil⟩
  | cons c text =>
      refine ⟨_, ?_, skips_cons c text⟩
      change (if c.utf8Size = 1 then some text else some []) = _
      split <;> rfl

theorem afterEnv?_cons (h : ¬ "env".toList <+: c :: text) :
    afterEnv? (c :: text) = afterEnv? text := by
  rw [afterEnv?, if_neg (by rwa [List.isPrefixOf_iff_prefix])]

theorem behind_append (h : Skips text rest) : Behind ("env".toList ++ text) rest :=
  ⟨[], text, rfl, fun _ _ _ => Nat.zero_le _, h⟩

theorem Behind.cons (hhead : ¬ "env".toList <+: c :: text) (h : Behind text rest) :
    Behind (c :: text) rest := by
  obtain ⟨front, back, rfl, hfirst, hskips⟩ := h
  refine ⟨c :: front, back, rfl, fun front' back' htoken => ?_, hskips⟩
  cases front' with
  | nil => exact absurd ⟨back', htoken.symm⟩ hhead
  | cons d front' => exact Nat.succ_le_succ (hfirst front' back' (List.cons_eq_cons.mp htoken).2)

theorem behind_of_afterEnv? (h : afterEnv? token = some rest) : Behind token rest := by
  induction token with
  | nil => cases h
  | cons c text ih =>
      by_cases hhead : "env".toList <+: c :: text
      · obtain ⟨back, hback⟩ := hhead
        obtain ⟨rest', hafter, hskips⟩ := exists_afterEnv?_append back
        rw [← hback] at h ⊢
        obtain rfl := Option.some.inj (hafter.symm.trans h)
        exact behind_append hskips
      · rw [afterEnv?_cons hhead] at h
        exact (ih h).cons hhead

theorem afterEnv?_eq_none_iff : afterEnv? token = none ↔ ¬ "env".toList <:+: token := by
  induction token with
  | nil => exact iff_of_true rfl (by simp)
  | cons c text ih =>
      rw [List.infix_cons_iff, not_or]
      by_cases hhead : "env".toList <+: c :: text
      · obtain ⟨back, hback⟩ := hhead
        obtain ⟨rest, hafter, -⟩ := exists_afterEnv?_append back
        rw [← hback, hafter]
        exact iff_of_false (by simp) fun h => h.1 (List.prefix_append _ _)
      · rw [afterEnv?_cons hhead, ih]
        exact (and_iff_right hhead).symm

theorem afterEnv?_eq_some_iff : afterEnv? token = some rest ↔ Behind token rest := by
  refine ⟨behind_of_afterEnv?, fun h => ?_⟩
  cases hafter : afterEnv? token with
  | none =>
      obtain ⟨front, back, rfl, -, -⟩ := h
      exact absurd ⟨front, back, rfl⟩ (afterEnv?_eq_none_iff.mp hafter)
  | some rest' => rw [h.unique (behind_of_afterEnv? hafter)]

/-- What is behind the `env` is a proper suffix. -/
theorem suffix_of_afterEnv? (h : afterEnv? token = some rest) :
    rest <:+ token ∧ rest.length < token.length := by
  refine ⟨?_, length_lt_of_afterEnv? h⟩
  obtain ⟨front, back, rfl, -, ⟨byte, rfl, -⟩ | ⟨rfl, -⟩⟩ := behind_of_afterEnv? h
  · exact ⟨front ++ "env".toList ++ byte, by simp⟩
  · exact List.nil_suffix

theorem environmentToken?_eq_none (h : afterEnv? token = none) :
    environmentToken? token = none := by
  rw [environmentToken?]
  split <;> simp_all

theorem environmentToken?_eq_some (h : afterEnv? token = some rest) :
    environmentToken? token = some ((environmentToken? rest).getD rest) := by
  rw [environmentToken?]
  split <;> simp_all

/-- What the environment is asked for in the end is a proper suffix without an `env`. -/
theorem exists_environmentToken? (h : "env".toList <:+: token) :
    ∃ rest, environmentToken? token = some rest ∧ rest <:+ token ∧ rest.length < token.length ∧
      ¬ "env".toList <:+: rest := by
  induction hlength : token.length using Nat.strongRecOn generalizing token with
  | ind n ih =>
      subst hlength
      cases hafter : afterEnv? token with
      | none => exact absurd h (afterEnv?_eq_none_iff.mp hafter)
      | some rest =>
          obtain ⟨hsuffix, hlt⟩ := suffix_of_afterEnv? hafter
          rw [environmentToken?_eq_some hafter]
          by_cases henv : "env".toList <:+: rest
          · obtain ⟨last, hlast, hsuffix', hlt', hnone⟩ := ih rest.length hlt henv rfl
            refine ⟨last, ?_, hsuffix'.trans hsuffix, Nat.lt_trans hlt' hlt, hnone⟩
            rw [hlast, Option.getD_some]
          · refine ⟨rest, ?_, hsuffix, hlt, henv⟩
            rw [environmentToken?_eq_none (afterEnv?_eq_none_iff.mpr henv), Option.getD_none]

end Token

namespace Instance

/-- The token is not for attributes, whatever their names: the instance has a name, and a relation
has ends. -/
def Reserves (o : Instance) (token : String) : Prop :=
  token = "name" ∨ o.isRelation = true ∧ (token = "from" ∨ token = "to")

/-- The first attribute of that name has the value. -/
def FirstValue (o : Instance) (name value : String) : Prop :=
  ∃ index a, o.snippet.attributes[index]? = some a ∧ a.name = name ∧
    ¬ o.snippet.NamedBefore index name ∧ o.values[index]? = some value

variable {o : Instance} {name value : String}

theorem valueOf?_eq_none_iff :
    o.valueOf? name = none ↔ ∀ a ∈ o.snippet.attributes, a.name ≠ name := by
  rw [valueOf?, Option.map_eq_none_iff, Snippet.attributeIndex?, List.findIdx?_eq_none_iff]
  simp

/-- Where every attribute has a value, the first of a name is found with its own. -/
theorem firstValue_iff (hlength : o.values.length = o.snippet.attributes.length) :
    o.FirstValue name value ↔ o.valueOf? name = some value := by
  constructor
  · rintro ⟨index, a, ha, hname, hfirst, hvalue⟩
    obtain ⟨hlt, rfl⟩ := List.getElem?_eq_some_iff.mp ha
    have hbefore : ∀ j (hj : j < index),
        ¬ (o.snippet.attributes[j].name == name) = true := by
      intro j hj hjname
      exact hfirst ⟨j, hj, _, List.getElem?_eq_getElem _, beq_iff_eq.mp hjname⟩
    have hindex : o.snippet.attributeIndex? name = some index :=
      List.findIdx?_eq_some_iff_getElem.mpr ⟨hlt, beq_iff_eq.mpr hname, hbefore⟩
    rw [valueOf?, hindex, Option.map_some, Instance.value, List.getD_eq_getElem?_getD, hvalue,
      Option.getD_some]
  · intro h
    obtain ⟨index, hindex, rfl⟩ := Option.map_eq_some_iff.mp h
    obtain ⟨hlt, hname, hbefore⟩ := List.findIdx?_eq_some_iff_getElem.mp hindex
    have hlt' : index < o.values.length := hlength ▸ hlt
    refine ⟨index, _, List.getElem?_eq_getElem hlt, beq_iff_eq.mp hname, ?_, ?_⟩
    · rintro ⟨j, hj, b, hb, hbname⟩
      obtain ⟨_, rfl⟩ := List.getElem?_eq_some_iff.mp hb
      exact hbefore j hj (beq_iff_eq.mpr hbname)
    · rw [Instance.value, List.getD_eq_getElem?_getD, List.getElem?_eq_getElem hlt',
        Option.getD_some]

end Instance

namespace World

/-- In the world, with the texts of the catalog, the token yields the text on the instance. -/
inductive Yields (w : World) (catalog : Catalog) : Instance → String → String → Prop where
  /-- The environment is asked for what is behind an `env`. -/
  | environment {o : Instance} {token text : String} {rest : List Char} :
      Token.Behind token.toList rest → Yields w catalog w.environment (String.ofList rest) text →
      Yields w catalog o token text
  /-- An instance that the token names is written with its loop variable. -/
  | named {o p : Instance} {token : String} :
      w.Names o token p → Yields w catalog o token (w.qualifiedName p)
  | valued {o : Instance} {token value : String} :
      ¬ "env".toList <:+: token.toList → ¬ o.Reserves token → o.FirstValue token value →
      Yields w catalog o token value
  | notFound {o : Instance} {token : String} :
      ¬ "env".toList <:+: token.toList → ¬ o.Reserves token →
      (∀ a ∈ o.snippet.attributes, a.name ≠ token) →
      Yields w catalog o token (token ++ catalog.notFoundSuffix)

variable {w : World} {catalog : Catalog} {o p : Instance} {token name text value : String}

/-- One step of the resolution, on what is behind an `env`. -/
theorem resolve_of_afterEnv? {rest : List Char} (h : Token.afterEnv? token.toList = some rest) :
    w.resolve catalog o token = w.resolve catalog w.environment (String.ofList rest) := by
  rw [resolve, resolve, Token.environmentToken?_eq_some h, String.toList_ofList]
  cases hrest : Token.environmentToken? rest <;> rfl

theorem resolve_of_no_env (h : ¬ "env".toList <:+: token.toList) :
    w.resolve catalog o token = w.lookup catalog o token :=
  resolve_of_afterEnv?_eq_none w catalog o (Token.afterEnv?_eq_none_iff.mpr h)

theorem lookup_of_not_reserves (h : ¬ o.Reserves token) :
    w.lookup catalog o token = (o.valueOf? token).getD (catalog.notFound token) := by
  rw [Instance.Reserves, not_or, not_and, not_or] at h
  obtain ⟨hname, hends⟩ := h
  cases hrole : o.role with
  | entity => rw [lookup_of_entity w catalog hrole, if_neg hname]
  | relation source target =>
      obtain ⟨hfrom, hto⟩ := hends (by rw [Instance.isRelation, hrole]; rfl)
      rw [lookup_of_relation w catalog hrole, if_neg hfrom, if_neg hto, if_neg hname]

theorem Yields.resolve_eq (hw : w.WellFormed) (h : Yields w catalog o token text)
    (ho : o ∈ w.instances) : w.resolve catalog o token = text := by
  induction h with
  | environment hbehind _ ih =>
      rw [resolve_of_afterEnv? (Token.afterEnv?_eq_some_iff.mpr hbehind)]
      exact ih w.environment_mem_instances
  | named hnames => exact hnames.resolve_eq catalog
  | valued henv hreserves hvalue =>
      rw [resolve_of_no_env henv, lookup_of_not_reserves hreserves,
        (Instance.firstValue_iff (hw.values_length _ ho)).mp hvalue, Option.getD_some]
  | notFound henv hreserves hne =>
      rw [resolve_of_no_env henv, lookup_of_not_reserves hreserves,
        Instance.valueOf?_eq_none_iff.mpr hne, Option.getD_none, Catalog.notFound]

/-- A token that an instance reserves names an instance of the world. -/
theorem exists_names (hw : w.WellFormed) (hlinked : w.Linked) (ho : o ∈ w.instances)
    (h : o.Reserves token) : ∃ p, w.Names o token p := by
  rcases h with rfl | ⟨hrelation, hends⟩
  · exact ⟨o, .self⟩
  · cases hrole : o.role with
    | entity =>
        rw [Instance.isRelation, hrole] at hrelation
        cases hrelation
    | relation source target =>
        obtain ⟨a, b, ha, hb, -, -⟩ := hlinked.exists_ends hw ho hrole
        rcases hends with rfl | rfl
        · exact ⟨a, .source hrole ha⟩
        · exact ⟨b, .target hrole hb⟩

theorem yields_resolve (hw : w.WellFormed) (hlinked : w.Linked) (ho : o ∈ w.instances)
    (token : String) : Yields w catalog o token (w.resolve catalog o token) := by
  -- The rule for `env` makes the token shorter, so the induction is on its length.
  induction hlength : token.toList.length using Nat.strongRecOn generalizing o token with
  | ind n ih =>
      subst hlength
      cases hafter : Token.afterEnv? token.toList with
      | some rest =>
          rw [resolve_of_afterEnv? hafter]
          refine .environment (Token.afterEnv?_eq_some_iff.mp hafter) ?_
          refine ih rest.length (Token.length_lt_of_afterEnv? hafter) w.environment_mem_instances
            (String.ofList rest) ?_
          rw [String.toList_ofList]
      | none =>
          have henv := Token.afterEnv?_eq_none_iff.mp hafter
          by_cases hreserves : o.Reserves token
          · obtain ⟨p, hnames⟩ := exists_names hw hlinked ho hreserves
            rw [hnames.resolve_eq catalog]
            exact .named hnames
          · rw [resolve_of_no_env henv, lookup_of_not_reserves hreserves]
            cases hvalue : o.valueOf? token with
            | some value =>
                exact .valued henv hreserves
                  ((Instance.firstValue_iff (hw.values_length o ho)).mpr hvalue)
            | none =>
                exact .notFound henv hreserves (Instance.valueOf?_eq_none_iff.mp hvalue)

/-- In a reachable world every token yields one text on every instance, the one that it resolves
to. With an `env` in it, it is handed on to the environment by all instances alike, in the end as
a proper suffix without an `env`. An attribute that can be asked for resolves to the value of the
first of its name, whatever the catalog. -/
theorem tokens_yield_what_they_resolve_to (h : Reachable w) :
    (∀ catalog, ∀ o ∈ w.instances, ∀ token text,
      Yields w catalog o token text ↔ w.resolve catalog o token = text) ∧
      (∀ token : String, "env".toList <:+: token.toList →
        ∃ rest : String, rest.toList <:+ token.toList ∧ rest ≠ token ∧
          ¬ "env".toList <:+: rest.toList ∧
          ∀ catalog, ∀ o ∈ w.instances,
            w.resolve catalog o token = w.resolve catalog w.environment rest) ∧
      ∀ o ∈ w.instances, ∀ a ∈ o.snippet.attributes, ¬ "env".toList <:+: a.name.toList →
        ¬ o.Reserves a.name →
        ∃ value, o.FirstValue a.name value ∧ ∀ catalog, w.resolve catalog o a.name = value := by
  have hw := h.wellFormed
  refine ⟨fun catalog o ho token text => ⟨fun hyields => hyields.resolve_eq hw ho, ?_⟩, ?_, ?_⟩
  · rintro rfl
    exact yields_resolve hw h.linked ho token
  · intro token henv
    obtain ⟨rest, hrest, hsuffix, hlt, hnone⟩ := Token.exists_environmentToken? henv
    have htext : (String.ofList rest).toList = rest := String.toList_ofList
    rw [← htext] at hsuffix hlt hnone
    refine ⟨String.ofList rest, hsuffix, ?_, hnone, fun catalog o ho => ?_⟩
    · intro heq
      rw [heq] at hlt
      exact Nat.lt_irrefl _ hlt
    · rw [resolve_of_no_env hnone, resolve, hrest]
  · intro o ho a ha henv hreserves
    cases hvalue : o.valueOf? a.name with
    | none => exact absurd rfl (Instance.valueOf?_eq_none_iff.mp hvalue a ha)
    | some value =>
        refine ⟨value, (Instance.firstValue_iff (hw.values_length o ho)).mpr hvalue,
          fun catalog => ?_⟩
        rw [resolve_of_no_env henv, lookup_of_not_reserves hreserves, hvalue, Option.getD_some]

/-- Two prefixes in a row, one of them behind other text; a prefix with a character of two bytes
behind it, which leaves nothing to ask for; and the colour of a node. -/
theorem tokens_yield_what_they_resolve_to_network :
    Reachable network ∧
      (∀ o ∈ network.instances, network.resolve .standard o "the env.env.name" = "ns") ∧
      (∀ o ∈ network.instances, network.resolve .standard o "env.envé" = ".NotFound") ∧
      ∃ o ∈ network.instances, ∃ value, o.FirstValue "color" value ∧
        ∀ catalog, network.resolve catalog o "color" = value := by
  obtain ⟨hyields, -, hvalue⟩ := tokens_yield_what_they_resolve_to reachable_network
  have hname : Yields network .standard network.environment "name" "ns" := .named .self
  have hbehind : Token.Behind "the env.env.name".toList "env.name".toList :=
    Token.afterEnv?_eq_some_iff.mp (by decide)
  have hbehind' : Token.Behind "env.name".toList "name".toList :=
    Token.afterEnv?_eq_some_iff.mp (by decide)
  have hwide : Token.Behind "env.envé".toList "envé".toList :=
    Token.afterEnv?_eq_some_iff.mp (by decide)
  have hwide' : Token.Behind "envé".toList [] := Token.afterEnv?_eq_some_iff.mp (by decide)
  have hnothing : Yields network .standard network.environment "" ".NotFound" :=
    .notFound (by decide) (by rintro (h | ⟨h, -⟩) <;> exact absurd h (by decide)) (by decide)
  refine ⟨reachable_network, fun o ho => ?_, fun o ho => ?_, ?_⟩
  · exact (hyields _ o ho _ _).mp (.environment hbehind (.environment hbehind' hname))
  · exact (hyields _ o ho _ _).mp (.environment hwide (.environment hwide' hnothing))
  · have ho : ⟨⟨1⟩, node, "a", some 0, ["black"], .entity⟩ ∈ network.instances := by decide
    exact ⟨_, ho, hvalue _ ho ⟨"color", some "black", none⟩ (by decide) (by decide)
      (by rintro (h | ⟨h, -⟩) <;> exact absurd h (by decide))⟩

end World

end Stencil
