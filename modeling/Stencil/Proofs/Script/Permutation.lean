import Mathlib.Data.List.Perm.Basic
import Stencil.Proofs.Scene.Build
import Stencil.Proofs.Script.Alike
import Stencil.Proofs.World.Linked

/-!
# The order in which objects are added

The numbers of instances say in which order they were added, and relations hold on to their
ends by number. The script shows neither: it is sorted by rank and name, and of the ends of a
relation it shows names and arrays. So two scenes that list the same named objects in different
orders build worlds with the same script. An instance of one world and the instance of the
other that comes from the same entry of the scene are `Counterpart`s.
-/

namespace Stencil

open Scene

namespace World

variable {w v u u' : World} {o p a b : Instance} {registry : Registry}

/-- The instances are equal but for their numbers and their places in the world. -/
structure Twin (o p : Instance) : Prop where
  snippet : p.snippet = o.snippet
  name : p.name = o.name
  array : p.array? = o.array?
  values : p.values = o.values

/-- `o` in `w` and `p` in `v` are twins, and so far as they link others, these have the same
names. -/
inductive Counterpart (w v : World) : Instance → Instance → Prop where
  | entity {o p : Instance} :
      Twin o p → o.role = .entity → p.role = .entity → Counterpart w v o p
  | relation {o p a b a' b' : Instance} :
      Twin o p → a ∈ w.instances → b ∈ w.instances → a' ∈ v.instances → b' ∈ v.instances →
      a'.name = a.name → b'.name = b.name → o.role = .relation a.id b.id →
      p.role = .relation a'.id b'.id → Counterpart w v o p

theorem Counterpart.twin (h : Counterpart w v o p) : Twin o p := by
  cases h with
  | entity h _ _ => exact h
  | relation h _ _ _ _ _ _ _ _ => exact h

theorem Twin.alike (h : Twin o p) (harrays : v.arrays = w.arrays) : Alike w v o p where
  snippet := h.snippet
  name := h.name
  values := h.values
  array := by
    unfold arrayOf? array?
    rw [h.array, harrays]
  isSome := by rw [h.array]

/-- Where every instance has a counterpart, counterparts correspond: the ends have counterparts
too, and these are the ones of the same names. -/
theorem Counterpart.corresponds (h : Counterpart w v o p) (hw : w.WellFormed)
    (hv : v.WellFormed) (harrays : v.arrays = w.arrays)
    (hall : ∀ a ∈ w.instances, ∃ a' ∈ v.instances, Counterpart w v a a') :
    Corresponds w v o p := by
  have hend : ∀ a ∈ w.instances, ∀ a' ∈ v.instances, a'.name = a.name → Twin a a' := by
    intro a ha a' ha' hname
    obtain ⟨a'', ha'', hcounterpart⟩ := hall a ha
    have hsame := hcounterpart.twin.name.trans hname.symm
    rw [← hv.eq_of_name ha'' ha' hsame]
    exact hcounterpart.twin
  cases h with
  | entity htwin ho hp => exact .entity (htwin.alike harrays) ho hp
  | @relation a b a' b' htwin ha hb ha' hb' haname hbname ho hp =>
      have hsource := hend a ha a' ha' haname
      have htarget := hend b hb b' hb' hbname
      refine .relation (htwin.alike harrays) ho hp (hw.get?_of_mem ha) (hw.get?_of_mem hb)
        (hv.get?_of_mem ha') (hv.get?_of_mem hb') (hsource.alike harrays)
        (htarget.alike harrays) ?_
      rw [hsource.array, htarget.array]

theorem twin_nextInstance (harrays : u'.arrays = u.arrays) (snippet : Snippet)
    {name? : Option String} (hname : name?.isSome) (array? : Option String)
    (settings : Settings) (role role' : Role) :
    Twin (nextInstance u snippet name? array? settings role)
      (nextInstance u' snippet name? array? settings role') := by
  obtain ⟨name, rfl⟩ := Option.isSome_iff_exists.mp hname
  refine ⟨rfl, rfl, ?_, rfl⟩
  have hindex : u'.arrayIndex? = u.arrayIndex? := by
    funext name
    rw [arrayIndex?, harrays, ← arrayIndex?]
  simp [nextInstance, hindex]

theorem counterpart_of_entity {spec : EntitySpec} (hname : spec.name?.isSome)
    (harrays : u'.arrays = u.arrays) (ho : spec.Makes registry u o)
    (hp : spec.Makes registry u' p) : Counterpart w v o p := by
  obtain ⟨snippet, hsnippet, -, rfl⟩ := ho
  obtain ⟨snippet', hsnippet', -, rfl⟩ := hp
  obtain rfl := Option.some.inj (hsnippet.symm.trans hsnippet')
  exact .entity (twin_nextInstance harrays snippet hname _ _ _ _) rfl rfl

theorem counterpart_of_relation {spec : RelationSpec} (hname : spec.name?.isSome)
    (harrays : u'.arrays = u.arrays) {after after' : List Instance} (hu : Grows u w after)
    (hu' : Grows u' v after') (ho : spec.Makes registry u o) (hp : spec.Makes registry u' p) :
    Counterpart w v o p := by
  obtain ⟨snippet, a, b, hsnippet, ha, hb, -, rfl⟩ := ho
  obtain ⟨snippet', a', b', hsnippet', ha', hb', -, rfl⟩ := hp
  obtain rfl := Option.some.inj (hsnippet.symm.trans hsnippet')
  obtain ⟨ha, haname⟩ := find?_eq_some ha
  obtain ⟨hb, hbname⟩ := find?_eq_some hb
  obtain ⟨ha', haname'⟩ := find?_eq_some ha'
  obtain ⟨hb', hbname'⟩ := find?_eq_some hb'
  exact .relation (twin_nextInstance harrays snippet hname _ _ _ _) (hu.mem_instances ha)
    (hu.mem_instances hb) (hu'.mem_instances ha') (hu'.mem_instances hb')
    (haname'.trans haname.symm) (hbname'.trans hbname.symm) rfl rfl

/-- Lists that come from one list of specs, and from a permutation of it, have counterparts at
the same places once the first is permuted. -/
theorem exists_perm_of_forall₂ {σ : Type} {P Q : σ → Instance → Prop} {specs specs' : List σ}
    {made made' : List Instance} (hperm : specs'.Perm specs) (h : List.Forall₂ P specs made)
    (h' : List.Forall₂ Q specs' made')
    (hPQ : ∀ spec ∈ specs', ∀ o p, P spec o → Q spec p → Counterpart w v o p) :
    ∃ made'', made''.Perm made ∧ List.Forall₂ (Counterpart w v) made'' made' := by
  obtain ⟨made'', hmade'', hperm'⟩ := List.perm_comp_forall₂ hperm h
  refine ⟨made'', hperm', ?_⟩
  clear hperm hperm' h
  induction hmade'' generalizing made' with
  | nil =>
      cases h'
      exact .nil
  | @cons spec o specs' made'' hP _ ih =>
      cases h' with
      | cons hQ hrest =>
          refine .cons (hPQ spec List.mem_cons_self o _ hP hQ) (ih hrest ?_)
          exact fun spec' hmem => hPQ spec' (List.mem_cons_of_mem _ hmem)

/-- The instance of the name in `v` that an instance has in another world. -/
def namesake (v : World) (o : Instance) : Instance := (v.find? o.name).getD o

theorem namesake_eq (hv : v.WellFormed) (hp : p ∈ v.instances) (hname : p.name = o.name) :
    v.namesake o = p := by
  have hfound : (v.find? o.name).isSome := by
    rw [find?, List.find?_isSome]
    exact ⟨p, hp, by simpa using hname⟩
  obtain ⟨q, hq⟩ := Option.isSome_iff_exists.mp hfound
  obtain ⟨hqmem, hqname⟩ := find?_eq_some hq
  rw [namesake, hq, Option.getD_some]
  exact hv.eq_of_name hqmem hp (hqname.trans hname.symm)

theorem eq_map_namesake (hv : v.WellFormed) {made made' : List Instance}
    (hmem : ∀ p ∈ made', p ∈ v.instances) (h : List.Forall₂ (Counterpart w v) made made') :
    made' = made.map v.namesake ∧
      ∀ o ∈ made, v.namesake o ∈ v.instances ∧ Counterpart w v o (v.namesake o) := by
  induction h with
  | nil => exact ⟨rfl, by simp⟩
  | @cons o p made made' hop _ ih =>
      obtain ⟨hp, hrest⟩ := List.forall_mem_cons.mp hmem
      obtain ⟨hmap, hall⟩ := ih hrest
      have hsame := namesake_eq hv hp hop.twin.name
      refine ⟨by rw [List.map_cons, hsame, hmap], ?_⟩
      rw [List.forall_mem_cons, hsame]
      exact ⟨⟨hp, hop⟩, hall⟩

/-- Worlds with the same environment and arrays have the same script if the other instances of
one are, in some order, counterparts of those of the other. -/
theorem script_eq_of_counterparts (hw : w.WellFormed) (hv : v.WellFormed)
    (henvironment : v.environment = w.environment) (harrays : v.arrays = w.arrays)
    {made : List Instance} (hperm : made.Perm w.others)
    (h : List.Forall₂ (Counterpart w v) made v.others) (style : Style) :
    v.script style = w.script style := by
  obtain ⟨hmap, hmade⟩ := eq_map_namesake hv (fun _ => mem_instances_of_mem_others) h
  have hname : v.namesake w.environment = w.environment := by
    refine namesake_eq hv ?_ rfl
    rw [← henvironment]
    exact v.environment_mem_instances
  have hall : ∀ o ∈ w.instances,
      v.namesake o ∈ v.instances ∧ Counterpart w v o (v.namesake o) := by
    refine List.forall_mem_cons.mpr ⟨?_, fun o ho => hmade o (hperm.mem_iff.mpr ho)⟩
    rw [hname, ← henvironment]
    refine ⟨v.environment_mem_instances, ?_⟩
    rw [henvironment]
    exact .entity ⟨rfl, rfl, rfl, rfl⟩ hw.environment_role hw.environment_role
  refine script_eq_of_forall_corresponds hv (henvironment.trans hname.symm) ?_ ?_ style
  · rw [hmap]
    exact hperm.map v.namesake
  · intro o ho
    exact (hall o ho).2.corresponds hw hv harrays fun a ha => ⟨_, hall a ha⟩

end World

namespace Scene

variable {registry : Registry} {s t : Scene} {w v : World}

/-- The script of a scene does not depend on the order in which its entities and its relations
are listed, if each of them has a name of its own. -/
theorem script_eq_of_perm (henvironment : t.environment = s.environment)
    (harrays : t.arrays = s.arrays) (hentities : t.entities.Perm s.entities)
    (hrelations : t.relations.Perm s.relations)
    (hentityNames : ∀ spec ∈ s.entities, spec.name?.isSome)
    (hrelationNames : ∀ spec ∈ s.relations, spec.name?.isSome)
    (hs : s.build registry = .ok w) (ht : t.build registry = .ok v) (style : Style) :
    v.script style = w.script style := by
  obtain ⟨hw, snippet, entities, relations, hsnippet, hgrows, hmade, hlinked⟩ :=
    exists_of_build hs
  obtain ⟨hv, snippet', entities', relations', hsnippet', hgrows', hmade', hlinked'⟩ :=
    exists_of_build ht
  rw [henvironment] at hsnippet'
  obtain rfl := Option.some.inj (hsnippet.symm.trans hsnippet')
  have hfoundation : t.foundation snippet = s.foundation snippet := by
    rw [foundation, henvironment, harrays, ← foundation]
  rw [hfoundation] at hgrows' hmade' hlinked'
  -- Entry by entry, what one scene makes is the counterpart of what the other makes.
  obtain ⟨entities'', hperm, hcounterparts⟩ := World.exists_perm_of_forall₂ (w := w) (v := v)
    hentities hmade hmade' (by
      rintro spec hspec o p ⟨u, _, _, hu, -, ho⟩ ⟨u', _, _, hu', -, hp⟩
      exact World.counterpart_of_entity (hentityNames spec (hentities.mem_iff.mp hspec))
        (hu'.arrays.trans hu.arrays.symm) ho hp)
  obtain ⟨relations'', hperm', hcounterparts'⟩ := World.exists_perm_of_forall₂ (w := w) (v := v)
    hrelations hlinked hlinked' (by
      rintro spec hspec o p ⟨u, _, _, hu, hafter, ho⟩ ⟨u', _, _, hu', hafter', hp⟩
      exact World.counterpart_of_relation (hrelationNames spec (hrelations.mem_iff.mp hspec))
        (hu'.arrays.trans hu.arrays.symm) hafter hafter' ho hp)
  refine World.script_eq_of_counterparts hw.wellFormed hv.wellFormed
    (hgrows'.environment.trans hgrows.environment.symm)
    (hgrows'.arrays.trans hgrows.arrays.symm) (hperm.append hperm' |>.trans ?_) ?_ style
  · rw [hgrows.others]
    exact .refl _
  · rw [hgrows'.others]
    exact List.rel_append hcounterparts hcounterparts'

/-! ### A pair of nodes -/

/-- The classes of the network. -/
def networkClasses : Registry :=
  ⟨[⟨"network", "Network", "1", [World.simulator, World.node, World.link]⟩]⟩

/-- Two nodes, the first of them on an array, with a link each way. -/
def pair : Scene where
  environment := ⟨"Simulator", none, []⟩
  arrays := [⟨"i", 2⟩]
  entities :=
    [⟨"Node", some "a", some "i", []⟩, ⟨"Node", some "b", none, [("color", "red")]⟩]
  relations := [⟨"Link", some "ab", "a", "b", none, []⟩, ⟨"Link", some "ba", "b", "a", none, []⟩]

/-- The pair, listed from the other end. -/
def pairReversed : Scene :=
  { pair with entities := pair.entities.reverse, relations := pair.relations.reverse }

/-- The world of the pair. -/
def pairWorld : World where
  environment := .create ⟨0⟩ World.simulator "ns" .entity
  others :=
    [⟨⟨1⟩, World.node, "a", some 0, ["black"], .entity⟩,
      ⟨⟨2⟩, World.node, "b", none, ["red"], .entity⟩,
      .create ⟨3⟩ World.link "ab" (.relation ⟨1⟩ ⟨2⟩),
      .create ⟨4⟩ World.link "ba" (.relation ⟨2⟩ ⟨1⟩)]
  arrays := [⟨"i", 2⟩]
  nextId := 5

/-- The world of the pair listed from the other end. -/
def pairReversedWorld : World where
  environment := .create ⟨0⟩ World.simulator "ns" .entity
  others :=
    [⟨⟨1⟩, World.node, "b", none, ["red"], .entity⟩,
      ⟨⟨2⟩, World.node, "a", some 0, ["black"], .entity⟩,
      .create ⟨3⟩ World.link "ba" (.relation ⟨1⟩ ⟨2⟩),
      .create ⟨4⟩ World.link "ab" (.relation ⟨2⟩ ⟨1⟩)]
  arrays := [⟨"i", 2⟩]
  nextId := 5

/-- The nodes and the links of the pair get other numbers when they are listed from the other
end, and the script is the same. -/
theorem script_pairReversed :
    pair.build networkClasses = .ok pairWorld ∧
      pairReversed.build networkClasses = .ok pairReversedWorld ∧
      pairReversed.entities.Perm pair.entities ∧ pairReversed.relations.Perm pair.relations ∧
      ∀ style, pairReversedWorld.script style = pairWorld.script style := by
  have hbuild : pair.build networkClasses = .ok pairWorld := by decide
  have hbuild' : pairReversed.build networkClasses = .ok pairReversedWorld := by decide
  have hentities : pairReversed.entities.Perm pair.entities := List.reverse_perm _
  have hrelations : pairReversed.relations.Perm pair.relations := List.reverse_perm _
  have hnames : ∀ spec ∈ pair.entities, spec.name?.isSome := by decide
  have hnames' : ∀ spec ∈ pair.relations, spec.name?.isSome := by decide
  refine ⟨hbuild, hbuild', hentities, hrelations, ?_⟩
  exact script_eq_of_perm (s := pair) (t := pairReversed) rfl rfl hentities hrelations hnames
    hnames' hbuild hbuild'

end Scene

end Stencil
