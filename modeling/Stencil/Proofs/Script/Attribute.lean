import Stencil.Proofs.Script.Outline
import Stencil.Proofs.World.Reset

/-!
# Where the value of an attribute is seen

In the end a token is looked up: on the instance that it is resolved on or, stripped of its
prefixes, on the environment (`LooksUp`). A new value for an attribute is seen where the name of the
attribute is looked up on its instance, unless the instance reserves the name. Nothing else is seen
of it (`new_value_seen_where_looked_up`), since other values change nothing in names, ends and
loops.
-/

namespace Stencil

theorem Snippet.name_of_attributeIndex? {s : Snippet} {name : String} {index : Nat}
    (h : s.attributeIndex? name = some index) :
    s.attributes[index]?.map (·.name) = some name := by
  obtain ⟨hlt, hname, -⟩ := List.findIdx?_eq_some_iff_getElem.mp h
  rw [List.getElem?_eq_getElem hlt, Option.map_some, beq_iff_eq.mp hname]

namespace Instance

variable {o : Instance} {name token value : String}

theorem valueOf?_setValue_of_ne (h : token ≠ name) :
    (o.setValue name value).valueOf? token = o.valueOf? token := by
  unfold setValue
  split
  · next index hindex =>
      cases htoken : o.snippet.attributeIndex? token with
      | none => simp [valueOf?, htoken]
      | some index' =>
          have hne : index ≠ index' := by
            rintro rfl
            have hnames := (Snippet.name_of_attributeIndex? htoken).symm.trans
              (Snippet.name_of_attributeIndex? hindex)
            exact h (Option.some.inj hnames)
          simp [valueOf?, htoken, Instance.value, List.getElem?_set_ne hne]
  · rfl

theorem valueOf?_setValue_self {a : Attribute}
    (hlength : o.values.length = o.snippet.attributes.length)
    (ha : o.snippet.attribute? name = some a) :
    (o.setValue name value).valueOf? name = some value := by
  obtain ⟨index, hindex, haindex, -⟩ := Snippet.exists_attributeIndex? ha
  have hlt : index < o.values.length := hlength ▸ (List.getElem?_eq_some_iff.mp haindex).1
  simp [setValue, hindex, valueOf?, Instance.value, hlt]

/-- The instance when the attribute of the instance of that number has been set. -/
def afterSetting (id : InstanceId) (name value : String) (o : Instance) : Instance :=
  if o.id = id then o.setValue name value else o

theorem persists_afterSetting (id : InstanceId) (name value : String) (o : Instance) :
    o.Persists (o.afterSetting id name value) :=
  persists_update (fun o => o.persists_setValue name value) id o

theorem outline_afterSetting (id : InstanceId) (name value : String) (o : Instance) :
    o.SameOutline (o.afterSetting id name value) where
  id := (persists_afterSetting id name value o).id
  name := by
    unfold afterSetting
    split <;> simp
  array := by
    unfold afterSetting
    split <;> simp
  role := (persists_afterSetting id name value o).role

end Instance

namespace World

/-- What is asked for by a token on an instance is, in the end, this name on that instance. -/
inductive LooksUp (w : World) : Instance → String → Instance → String → Prop where
  | here {o : Instance} {token : String} :
      ¬ "env".toList <:+: token.toList → LooksUp w o token o token
  /-- The environment is asked for what is behind an `env`. -/
  | environment {o p : Instance} {token name : String} {rest : List Char} :
      Token.Behind token.toList rest → LooksUp w w.environment (String.ofList rest) p name →
      LooksUp w o token p name

variable {w w' : World} {catalog : Catalog} {o p : Instance} {token name value : String}

theorem LooksUp.resolve_eq (h : w.LooksUp o token p name) (catalog : Catalog) :
    w.resolve catalog o token = w.lookup catalog p name := by
  induction h with
  | here henv => exact resolve_of_no_env henv
  | environment hbehind _ ih =>
      rw [resolve_of_afterEnv? (Token.afterEnv?_eq_some_iff.mpr hbehind), ih]

/-- Only the instance itself and the environment are asked. -/
theorem LooksUp.eq_or_eq (h : w.LooksUp o token p name) : p = o ∨ p = w.environment := by
  induction h with
  | here _ => exact .inl rfl
  | environment _ _ ih => exact .inr (ih.elim id id)

theorem exists_looksUp (w : World) (o : Instance) (token : String) :
    ∃ p name, w.LooksUp o token p name := by
  induction hlength : token.toList.length using Nat.strongRecOn generalizing o token with
  | ind n ih =>
      subst hlength
      cases hafter : Token.afterEnv? token.toList with
      | none => exact ⟨o, token, .here (Token.afterEnv?_eq_none_iff.mp hafter)⟩
      | some rest =>
          have hlt : (String.ofList rest).toList.length < token.toList.length := by
            rw [String.toList_ofList]
            exact Token.length_lt_of_afterEnv? hafter
          obtain ⟨p, name, hlooks⟩ := ih _ hlt w.environment (String.ofList rest) rfl
          exact ⟨p, name, .environment (Token.afterEnv?_eq_some_iff.mp hafter) hlooks⟩

theorem LooksUp.mapInstances {f : Instance → Instance} (h : w.LooksUp o token p name) :
    (w.mapInstances f).LooksUp (f o) token (f p) name := by
  induction h with
  | here henv => exact .here henv
  | environment hbehind _ ih => exact .environment hbehind ih

/-! ### A new value -/

variable {id : InstanceId} {a : Attribute}

theorem update_setValue (w : World) (id : InstanceId) (name value : String) :
    w.update id (·.setValue name value) =
      w.mapInstances (Instance.afterSetting id name value) := rfl

/-- The name is looked up on the instance itself, so its new value is found. -/
theorem WellFormed.lookup_afterSetting (hw : w.WellFormed) (ho : w.get? id = some o)
    (ha : o.snippet.attribute? name = some a) (hp : p ∈ w.instances) (hid : p.id = id)
    (hreserves : ¬ p.Reserves name) (catalog : Catalog) :
    (w.update id (·.setValue name value)).lookup catalog (p.afterSetting id name value) name =
      value := by
  obtain ⟨hmem, hoid⟩ := get?_eq_some ho
  obtain rfl := hw.eq_of_id hp hmem (hid.trans hoid.symm)
  have houtline := Instance.outline_afterSetting id name value p
  rw [lookup_of_not_reserves (mt houtline.reserves_iff.mp hreserves), Instance.afterSetting,
    if_pos hid, Instance.valueOf?_setValue_self (hw.values_length p hp) ha, Option.getD_some]

/-- Other names, other instances and reserved names are looked up as before. -/
theorem lookup_afterSetting_of_ne (hne : token = name → p.id = id → p.Reserves name)
    (catalog : Catalog) :
    (w.update id (·.setValue name value)).lookup catalog (p.afterSetting id name value) token =
      w.lookup catalog p token := by
  refine lookup_of_outline (Instance.outline_afterSetting id name value) ?_ catalog
  intro hreserves
  unfold Instance.afterSetting
  split
  · next hid =>
      refine Instance.valueOf?_setValue_of_ne ?_
      rintro rfl
      exact hreserves (hne rfl hid)
  · rfl

/-- A token that looks up the attribute where it is set resolves to the new value. -/
theorem WellFormed.resolve_afterSetting (hw : w.WellFormed) (ho : w.get? id = some o)
    (ha : o.snippet.attribute? name = some a) {q : Instance} (hq : q ∈ w.instances)
    (hlooks : w.LooksUp q token p name) (hid : p.id = id) (hreserves : ¬ p.Reserves name)
    (catalog : Catalog) :
    (w.update id (·.setValue name value)).resolve catalog (q.afterSetting id name value) token =
      value := by
  have hp : p ∈ w.instances := by
    rcases hlooks.eq_or_eq with rfl | rfl
    · exact hq
    · exact w.environment_mem_instances
  rw [update_setValue, hlooks.mapInstances.resolve_eq]
  exact hw.lookup_afterSetting ho ha hp hid hreserves catalog

/-- Any other token resolves as before. -/
theorem resolve_afterSetting_of_ne
    (hne : ∀ p, w.LooksUp o token p name → p.id = id → p.Reserves name) (catalog : Catalog) :
    (w.update id (·.setValue name value)).resolve catalog (o.afterSetting id name value) token =
      w.resolve catalog o token := by
  obtain ⟨p, name', hlooks⟩ := w.exists_looksUp o token
  rw [update_setValue, hlooks.mapInstances.resolve_eq, hlooks.resolve_eq]
  refine lookup_afterSetting_of_ne ?_ catalog
  rintro rfl
  exact hne p hlooks

/-- An instance that looks up nothing where the attribute is set has the same text. -/
theorem text_afterSetting (hid : o.id ≠ id) (henvironment : id ≠ w.environment.id)
    (style : Style) :
    (w.update id (·.setValue name value)).text style (o.afterSetting id name value) =
      w.text style o := by
  refine text_of_outline (Instance.outline_afterSetting id name value) ?_
  have hresolve : ∀ token, (w.update id (·.setValue name value)).resolve style.catalog
      (o.afterSetting id name value) token = w.resolve style.catalog o token := by
    intro token
    refine resolve_afterSetting_of_ne (fun p hlooks hpid => ?_) style.catalog
    rcases hlooks.eq_or_eq with rfl | rfl
    · exact absurd hpid hid
    · exact absurd hpid.symm henvironment
  rw [← update_setValue]
  unfold lines line
  rw [funext hresolve, (Instance.persists_afterSetting id name value o).snippet]

/-- The attribute that is set can be asked for on its instance, and has the value then. An instance
sees the value in every token that looks up the attribute on that instance, unless the name is
reserved there. All other tokens resolve to what they resolved to before. So no other instance is
written otherwise, unless it is the environment whose attribute is set. -/
theorem new_value_seen_where_looked_up (h : Reachable w)
    (hset : w.setAttribute id name value = .ok w') :
    (∃ o, w'.get? id = some o ∧
      (¬ "env".toList <:+: name.toList → ¬ o.Reserves name →
        ∀ catalog, w'.resolve catalog o name = value)) ∧
      List.Forall₂
        (fun o o' => o'.id = o.id ∧
          (∀ token p, w.LooksUp o token p name → p.id = id → ¬ p.Reserves name →
            ∀ catalog, w'.resolve catalog o' token = value) ∧
          (∀ token, (∀ p, w.LooksUp o token p name → p.id = id → p.Reserves name) →
            ∀ catalog, w'.resolve catalog o' token = w.resolve catalog o token) ∧
          (o.id ≠ id → id ≠ w.environment.id → ∀ style, w'.text style o' = w.text style o))
        w.instances w'.instances := by
  obtain ⟨o, a, ho, ha, -, rfl⟩ := setAttribute_eq_ok_iff.mp hset
  have hw := h.wellFormed
  have hf := Instance.outline_afterSetting id name value
  obtain ⟨hmem, hid⟩ := get?_eq_some ho
  refine ⟨⟨o.afterSetting id name value, ?_, ?_⟩, ?_⟩
  · rw [update_setValue, get?_of_outline hf, ho, Option.map_some]
  · intro henv hreserves
    have hreserves' := mt (hf o).reserves_iff.mpr hreserves
    exact hw.resolve_afterSetting ho ha hmem (.here henv) hid hreserves'
  · rw [update_setValue, instances_mapInstances, List.forall₂_map_right_iff, List.forall₂_same]
    intro q hq
    exact ⟨(hf q).id, fun _ _ => hw.resolve_afterSetting ho ha hq,
      fun _ => resolve_afterSetting_of_ne, text_afterSetting⟩

/-- A new step of the clockwork is seen by the node that asks the environment for it, which still
has its colour; a new colour of the node leaves the text of the clockwork as it is. -/
theorem new_value_seen_where_looked_up_ticking :
    Reachable ticking ∧
      (∃ w', ticking.setAttribute ⟨0⟩ "step" "0.9" = .ok w' ∧
        ∃ o ∈ w'.instances, o.name = "a" ∧ ∀ catalog,
          w'.resolve catalog o "env.env.step" = "0.9" ∧ w'.resolve catalog o "color" = "black") ∧
      ∃ w', ticking.setAttribute ⟨1⟩ "color" "red" = .ok w' ∧
        ∃ o ∈ w'.instances, o.name = "sim" ∧
          ∀ style, w'.text style o = ticking.text style ticking.environment := by
  have hreachable : Reachable ticking :=
    (Reachable.start (rfl : ofEnvironment clockwork "ns" = .ok stopped)).performAll _
  let a : Instance := ⟨⟨1⟩, node, "a", some 0, ["black"], .entity⟩
  have hinstances : ticking.instances = [ticking.environment, a] := by decide
  have hbehind : Token.Behind "env.env.step".toList "env.step".toList :=
    Token.afterEnv?_eq_some_iff.mp (by decide)
  have hbehind' : Token.Behind "env.step".toList "step".toList :=
    Token.afterEnv?_eq_some_iff.mp (by decide)
  have hstep : ticking.LooksUp a "env.env.step" ticking.environment "step" :=
    .environment hbehind (.environment hbehind' (.here (by decide)))
  have hcolor : ∀ p, ticking.LooksUp a "color" p "step" → p.id = ⟨0⟩ → p.Reserves "step" := by
    intro p hlooks
    generalize hname : "step" = name at hlooks
    cases hlooks with
    | here _ => exact absurd hname (by decide)
    | environment hbehind _ =>
        have hafter := Token.afterEnv?_eq_some_iff.mpr hbehind
        cases hafter
  have hreserves : ¬ ticking.environment.Reserves "step" := by
    rintro (h | ⟨h, -⟩) <;> exact absurd h (by decide)
  have hblack : ∀ catalog, ticking.resolve catalog a "color" = "black" :=
    fun catalog => (resolve_of_no_env (by decide)).trans rfl
  have hset : ticking.setAttribute ⟨0⟩ "step" "0.9" = .ok _ := rfl
  have hset' : ticking.setAttribute ⟨1⟩ "color" "red" = .ok _ := rfl
  have hall := (new_value_seen_where_looked_up hreachable hset).2
  have hall' := (new_value_seen_where_looked_up hreachable hset').2
  rw [hinstances] at hall hall'
  obtain _ | ⟨-, _ | ⟨⟨-, hseen, hsame, -⟩, -⟩⟩ := hall
  obtain _ | ⟨⟨-, -, -, htext⟩, -⟩ := hall'
  refine ⟨hreachable,
    ⟨_, hset, _, List.mem_cons_of_mem _ List.mem_cons_self, rfl, fun catalog => ?_⟩,
    ⟨_, hset', _, List.mem_cons_self, rfl, ?_⟩⟩
  · exact ⟨hseen _ _ hstep rfl hreserves catalog,
      (hsame "color" hcolor catalog).trans (hblack catalog)⟩
  · exact htext (by decide) (by decide)

end World

end Stencil
