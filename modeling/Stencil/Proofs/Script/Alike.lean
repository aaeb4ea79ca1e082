import Stencil.Proofs.Script.Order

/-!
# Instances that are written alike

The text of an instance reads little of its world: the environment, the array that the
instance is on, and of its ends their names and arrays. `Alike` says that two instances of
two worlds agree in what is read of a single one, `Corresponds` that their ends agree too,
whatever numbers they have. Then tokens resolve to the same texts, loops are over the same
arrays and the ranks are equal, so the texts are the same.
-/

namespace Stencil

namespace World

/-- What is read of `o` in `w` is read of `p` in `v`. -/
structure Alike (w v : World) (o p : Instance) : Prop where
  snippet : p.snippet = o.snippet
  name : p.name = o.name
  values : p.values = o.values
  array : v.arrayOf? p = w.arrayOf? o
  isSome : p.array?.isSome = o.array?.isSome

/-- `o` in `w` and `p` in `v` are alike, and so are their ends, which are on one array in `v`
exactly if they are in `w`. -/
inductive Corresponds (w v : World) : Instance → Instance → Prop where
  | entity {o p : Instance} :
      Alike w v o p → o.role = .entity → p.role = .entity → Corresponds w v o p
  | relation {o p a b a' b' : Instance} {source target source' target' : InstanceId} :
      Alike w v o p → o.role = .relation source target →
      p.role = .relation source' target' →
      w.get? source = some a → w.get? target = some b →
      v.get? source' = some a' → v.get? target' = some b' →
      Alike w v a a' → Alike w v b b' → (a'.array? = b'.array? ↔ a.array? = b.array?) →
      Corresponds w v o p

variable {w v : World} {o p : Instance}

theorem Corresponds.alike (h : Corresponds w v o p) : Alike w v o p := by
  cases h with
  | entity h _ _ => exact h
  | relation h _ _ _ _ _ _ _ _ _ => exact h

theorem Alike.qualifiedName_eq (h : Alike w v o p) : v.qualifiedName p = w.qualifiedName o := by
  rw [qualifiedName, qualifiedName, h.array, h.name]

theorem Alike.valueOf?_eq (h : Alike w v o p) (token : String) :
    p.valueOf? token = o.valueOf? token := by
  unfold Instance.valueOf? Instance.value
  rw [h.snippet, h.values]

theorem lookup_of_entity (w : World) (catalog : Catalog) {o : Instance} (h : o.role = .entity)
    (token : String) :
    w.lookup catalog o token =
      if token = "name" then w.qualifiedName o
      else (o.valueOf? token).getD (catalog.notFound token) := by
  unfold lookup
  rw [h]
  split <;> simp_all

theorem lookup_of_relation (w : World) (catalog : Catalog) {o : Instance}
    {source target : InstanceId} (h : o.role = .relation source target) (token : String) :
    w.lookup catalog o token =
      if token = "from" then w.endName catalog source token
      else if token = "to" then w.endName catalog target token
      else if token = "name" then w.qualifiedName o
      else (o.valueOf? token).getD (catalog.notFound token) := by
  unfold lookup
  rw [h]
  split <;> simp_all

theorem endName_of_get? {catalog : Catalog} {id : InstanceId} (h : w.get? id = some o)
    (token : String) : w.endName catalog id token = w.qualifiedName o := by
  rw [endName, h]

theorem Corresponds.lookup_eq (h : Corresponds w v o p) (catalog : Catalog) (token : String) :
    v.lookup catalog p token = w.lookup catalog o token := by
  have hname := h.alike.qualifiedName_eq
  have hvalue := h.alike.valueOf?_eq token
  cases h with
  | entity _ ho hp =>
      rw [lookup_of_entity v catalog hp, lookup_of_entity w catalog ho, hname, hvalue]
  | relation _ ho hp ha hb ha' hb' halike hblike _ =>
      rw [lookup_of_relation v catalog hp, lookup_of_relation w catalog ho, hname, hvalue,
        endName_of_get? ha, endName_of_get? hb, endName_of_get? ha', endName_of_get? hb',
        halike.qualifiedName_eq, hblike.qualifiedName_eq]

theorem Corresponds.resolve_eq (h : Corresponds w v o p)
    (henvironment : Corresponds w v w.environment v.environment) (catalog : Catalog) :
    v.resolve catalog p = w.resolve catalog o := by
  funext token
  unfold resolve
  split
  · exact henvironment.lookup_eq catalog _
  · exact h.lookup_eq catalog token

theorem arrayIndexOf?_of_get? {id : InstanceId} (h : w.get? id = some o) :
    w.arrayIndexOf? id = o.array? := by
  rw [arrayIndexOf?, h, Option.bind_some]

theorem loops_of_relation {source target : InstanceId} {a b : Instance}
    (ho : o.role = .relation source target) (hnone : o.array?.isSome = false)
    (ha : w.get? source = some a) (hb : w.get? target = some b) :
    w.loops o =
      if a.array?.isSome && a.array? == b.array? then ⟨w.arrayOf? a, none⟩
      else ⟨w.arrayOf? a, w.arrayOf? b⟩ := by
  simp [loops, hnone, ho, arrayIndexOf?_of_get? ha, arrayIndexOf?_of_get? hb, arrayOf?]

theorem Corresponds.loops_eq (h : Corresponds w v o p) : v.loops p = w.loops o := by
  have halike := h.alike
  by_cases hsome : o.array?.isSome = true
  · have hsome' : p.array?.isSome = true := halike.isSome.trans hsome
    simp [loops, hsome, hsome', halike.array]
  · have hnone : o.array?.isSome = false := by simpa using hsome
    have hnone' : p.array?.isSome = false := halike.isSome.trans hnone
    cases h with
    | entity _ ho hp => simp [loops, hnone, hnone', ho, hp]
    | @relation a b a' b' _ _ _ _ _ ho hp ha hb ha' hb' hsource htarget hshared =>
        rw [loops_of_relation hp hnone' ha' hb', loops_of_relation ho hnone ha hb,
          hsource.array, htarget.array, hsource.isSome]
        have hsame : (a'.array? == b'.array?) = (a.array? == b.array?) := by
          rw [Bool.eq_iff_iff, beq_iff_eq, beq_iff_eq]
          exact hshared
        rw [hsame]

/-- Instances that correspond are written alike. -/
theorem Corresponds.text_eq (h : Corresponds w v o p)
    (henvironment : Corresponds w v w.environment v.environment) (style : Style) :
    v.text style p = w.text style o := by
  have hlines : v.lines style p = w.lines style o := by
    unfold lines line
    rw [h.resolve_eq henvironment, h.alike.snippet]
  unfold text frame
  rw [hlines, h.loops_eq]

theorem Alike.layer_eq (h : Alike w v o p) : Layer.of? p = Layer.of? o := by
  unfold Layer.of?
  rw [h.snippet]

theorem Corresponds.rank_eq (h : Corresponds w v o p) : v.rank p = w.rank o := by
  have hlayer := h.alike.layer_eq
  cases h with
  | entity _ ho hp => simp [rank, ho, hp, hlayer]
  | relation _ ho hp ha hb ha' hb' hsource htarget _ =>
      simp [rank, ho, hp, ha, hb, ha', hb', hsource.layer_eq, htarget.layer_eq]

/-- If the instances of `v` correspond to those of `w` that are kept, the script of `v` has the
texts that these have in `w`, in the order of `w`. -/
theorem script_eq_of_corresponds (hv : v.WellFormed) {keep : Instance → Bool}
    {f : Instance → Instance} (henvironment : v.environment = f w.environment)
    (hkeep : keep w.environment = true)
    (hperm : v.others.Perm ((w.others.filter keep).map f))
    (hf : ∀ o ∈ w.instances, keep o = true → Corresponds w v o (f o)) (style : Style) :
    v.script style =
      String.intercalate "\n"
        (((w.ordered.filter keep).map (w.text style)).filter (!·.isEmpty) ++ [w.runLine]) := by
  have henv : Corresponds w v w.environment v.environment := by
    rw [henvironment]
    exact hf _ w.environment_mem_instances hkeep
  have hothers : ∀ o ∈ w.others, keep o = true → Corresponds w v o (f o) := by
    intro o ho
    exact hf o (mem_instances_of_mem_others ho)
  have hordered := ordered_eq_map_filter hv henvironment hkeep hperm
    (fun o ho hk => (hothers o ho hk).rank_eq) (fun o ho hk => (hothers o ho hk).alike.name)
  have htexts : ((w.ordered.filter keep).map f).map (v.text style) =
      (w.ordered.filter keep).map (w.text style) := by
    rw [List.map_map]
    refine List.map_congr_left ?_
    intro o ho
    obtain ⟨ho, hk⟩ := List.mem_filter.mp ho
    exact (hf o (mem_ordered_iff.mp ho) hk).text_eq henv style
  rw [script, hordered, htexts, runLine, henv.alike.name, ← runLine]

/-- The case in which all instances are kept. -/
theorem script_eq_of_forall_corresponds (hv : v.WellFormed) {f : Instance → Instance}
    (henvironment : v.environment = f w.environment) (hperm : v.others.Perm (w.others.map f))
    (hf : ∀ o ∈ w.instances, Corresponds w v o (f o)) (style : Style) :
    v.script style = w.script style := by
  rw [script_eq_of_corresponds hv henvironment rfl
    (by rwa [List.filter_true]) (fun o ho _ => hf o ho) style, List.filter_true, ← script]

end World

end Stencil
