import Mathlib.Data.List.Nodup
import Stencil.Script.Palette

/-!
# What repeats are replaced by

The scan of `Palette.distinguish` counts how many values have each colour. Said without counts,
the repeats, from the last one back, are given the colours that do not occur, in order, for as
long as there are any: `replaceRepeats_eq_replaceBack`. The invariant is `Uses.Fits`: a colour
among the values still to come has as many uses as there are of them, and any other colour has
at most one.

Afterwards no colour occurs twice (`distinct_distinguish`), and then nothing is replaced any
more, so to do it twice is to do it once.
-/

namespace Stencil

namespace Palette

/-- The colours that do not occur among the values. -/
def unused (values : List String) : List String := colors.filter (!values.contains ·)

/-- Replaces repeats in a list that is written from its last value back to its first,
giving out the free colours in order. -/
def replaceBack : List String → List String → List String
  | _, [] => []
  | free, value :: earlier =>
      if contains value && earlier.contains value then
        free.headD "" :: replaceBack free.tail earlier
      else value :: replaceBack free earlier

/-- No colour occurs twice. -/
def Distinct (values : List String) : Prop := (values.filter contains).Nodup

theorem nodup_colors : colors.Nodup := by decide

theorem contains_iff {value : String} : contains value = true ↔ value ∈ colors :=
  List.contains_iff_mem

theorem ne_empty_of_contains {value : String} (h : contains value = true) : value ≠ "" := by
  rintro rfl
  revert h
  decide

namespace Uses

variable {uses : Uses} {color c : String} {f : Nat → Nat}

@[simp] theorem alter_self : uses.alter color f color = f (uses color) := if_pos rfl

theorem alter_of_ne (h : c ≠ color) : uses.alter color f c = uses c := if_neg h

/-- The colours that no value has. -/
def free (uses : Uses) : List String := colors.filter (uses · == 0)

theorem mem_free_iff : c ∈ uses.free ↔ c ∈ colors ∧ uses c = 0 := by
  simp [free]

theorem free?_eq_head? (uses : Uses) : uses.free? = uses.free.head? :=
  (List.head?_filter).symm

/-- A colour that stays in use is not free before and not free after. -/
theorem free_alter_of_ne (hbefore : uses color ≠ 0) (hafter : f (uses color) ≠ 0) :
    (uses.alter color f).free = uses.free := by
  refine List.filter_congr ?_
  intro c _
  by_cases h : c = color
  · simp [h, hbefore, hafter]
  · rw [alter_of_ne h]

/-- The colour that is given out is the first of the free ones, and the others are left. -/
theorem free_alter_head {rest : List String} (h : uses.free = color :: rest) :
    (uses.alter color (· + 1)).free = rest := by
  have hnodup : uses.free.Nodup := nodup_colors.filter _
  rw [h, List.nodup_cons] at hnodup
  have hfilter : (uses.alter color (· + 1)).free = uses.free.filter (· != color) := by
    rw [free, free, List.filter_filter]
    refine List.filter_congr ?_
    intro c _
    by_cases hc : c = color
    · simp [hc]
    · simp [alter_of_ne hc, hc]
  rw [hfilter, h, List.filter_cons_of_neg (by simp), List.filter_eq_self]
  intro c hc
  simpa using fun heq : c = color => hnodup.1 (heq ▸ hc)

/-- The counts fit the values that are still to come: the colours among them have as many uses,
and of all others at most one value has been kept or given out. -/
structure Fits (uses : Uses) (values : List String) : Prop where
  count : ∀ c ∈ colors, c ∈ values → uses c = values.count c
  le_one : ∀ c ∈ colors, c ∉ values → uses c ≤ 1

theorem fits_count (values : List String) : Fits (values.count ·) values where
  count := fun _ _ _ => rfl
  le_one := by
    intro c _ hc
    rw [List.count_eq_zero_of_not_mem hc]
    exact Nat.zero_le 1

variable {value : String} {earlier : List String}

theorem Fits.count_cons (h : uses.Fits (value :: earlier)) (hvalue : contains value = true) :
    uses value = earlier.count value + 1 := by
  rw [h.count value (contains_iff.mp hvalue) List.mem_cons_self, List.count_cons_self]

theorem Fits.one_lt_iff (h : uses.Fits (value :: earlier)) (hvalue : contains value = true) :
    1 < uses value ↔ value ∈ earlier := by
  rw [h.count_cons hvalue, ← List.count_pos_iff]
  omega

/-- The value has its colour for itself, or is no colour. -/
theorem Fits.keep (h : uses.Fits (value :: earlier))
    (hkeep : contains value = true → value ∉ earlier) : uses.Fits earlier where
  count := by
    intro c hc hmem
    have hne : c ≠ value := by
      rintro rfl
      exact hkeep (contains_iff.mpr hc) hmem
    rw [h.count c hc (List.mem_cons_of_mem _ hmem), List.count_cons_of_ne hne.symm]
  le_one := by
    intro c hc hnot
    by_cases heq : c = value
    · subst heq
      have hcount := h.count_cons (contains_iff.mpr hc)
      rw [List.count_eq_zero_of_not_mem hnot] at hcount
      exact Nat.le_of_eq hcount
    · exact h.le_one c hc (by simp [heq, hnot])

theorem Fits.release (h : uses.Fits (value :: earlier)) (hvalue : contains value = true)
    (hmem : value ∈ earlier) : (uses.alter value (· - 1)).Fits earlier where
  count := by
    intro c hc hmem'
    by_cases heq : c = value
    · subst heq
      rw [alter_self, h.count_cons hvalue, Nat.add_sub_cancel]
    · rw [alter_of_ne heq, h.count c hc (List.mem_cons_of_mem _ hmem'),
        List.count_cons_of_ne (Ne.symm heq)]
  le_one := by
    intro c hc hnot
    have hne : c ≠ value := fun heq => hnot (heq ▸ hmem)
    rw [alter_of_ne hne]
    exact h.le_one c hc (by simp [hne, hnot])

theorem Fits.take (h : uses.Fits earlier) (hfree : uses color = 0) (hnew : color ∉ earlier) :
    (uses.alter color (· + 1)).Fits earlier where
  count := by
    intro c hc hmem
    have hne : c ≠ color := fun heq => hnew (heq ▸ hmem)
    rw [alter_of_ne hne]
    exact h.count c hc hmem
  le_one := by
    intro c hc hnot
    by_cases heq : c = color
    · subst heq
      have hone : uses.alter c (· + 1) c = 1 := by rw [alter_self, hfree]
      exact Nat.le_of_eq hone
    · rw [alter_of_ne heq]
      exact h.le_one c hc hnot

theorem Fits.notMem_of_free (h : uses.Fits earlier) (hcolor : color ∈ uses.free) :
    color ∉ earlier := by
  obtain ⟨hcolors, hzero⟩ := mem_free_iff.mp hcolor
  intro hmem
  rw [h.count color hcolors hmem] at hzero
  exact List.count_eq_zero.mp hzero hmem

/-- A repeat is replaced by the first free colour, and the counts follow. -/
theorem Fits.replace (h : uses.Fits (value :: earlier)) (hvalue : contains value = true)
    (hmem : value ∈ earlier) :
    (uses.replace value).1 = uses.free.headD "" ∧ (uses.replace value).2.Fits earlier ∧
      (uses.replace value).2.free = uses.free.tail := by
  have hrelease := h.release hvalue hmem
  have hcount := h.count_cons hvalue
  have hpos := List.count_pos_iff.mpr hmem
  have hfree : (uses.alter value (· - 1)).free = uses.free :=
    free_alter_of_ne (by omega) (by omega)
  simp only [Uses.replace, free?_eq_head?, hfree]
  cases hlist : uses.free with
  | nil => exact ⟨rfl, hrelease, hfree.trans hlist⟩
  | cons color rest =>
      have hhead : color ∈ (uses.alter value (· - 1)).free := by
        rw [hfree, hlist]
        exact List.mem_cons_self
      exact ⟨rfl, hrelease.take (mem_free_iff.mp hhead).2 (hrelease.notMem_of_free hhead),
        free_alter_head (hfree.trans hlist)⟩

end Uses

theorem replaceRepeats_eq_replaceBack {uses : Uses} {values : List String}
    (h : uses.Fits values) : replaceRepeats uses values = replaceBack uses.free values := by
  induction values generalizing uses with
  | nil => rfl
  | cons value earlier ih =>
      have hrepeat : (contains value && decide (1 < uses value)) =
          (contains value && earlier.contains value) := by
        cases hvalue : contains value with
        | false => rfl
        | true => simp [h.one_lt_iff hvalue]
      unfold replaceRepeats replaceBack
      rw [hrepeat]
      split
      · rename_i hboth
        obtain ⟨hvalue, hmem⟩ := Bool.and_eq_true_iff.mp hboth
        obtain ⟨hhead, hfits, hrest⟩ := h.replace hvalue (List.contains_iff_mem.mp hmem)
        rw [← hhead, ← hrest, ← ih hfits]
      · rename_i hnot
        rw [ih (h.keep ?_)]
        intro hvalue hmem
        exact hnot (by simp [hvalue, hmem])

/-- The colours that are given out are those that do not occur among the values. -/
theorem distinguish_eq (values : List String) :
    distinguish values = (replaceBack (unused values) values.reverse).reverse := by
  have hcount : (fun c => values.count c) = fun c => values.reverse.count c :=
    funext fun c => List.count_reverse.symm
  have hfree : Uses.free (values.reverse.count ·) = unused values := by
    refine List.filter_congr ?_
    intro c _
    rw [Bool.eq_iff_iff]
    simp [List.count_eq_zero]
  rw [distinguish, hcount, replaceRepeats_eq_replaceBack (Uses.fits_count _), hfree]

theorem mem_of_mem_replaceBack {free values : List String} {value : String}
    (h : value ∈ replaceBack free values) : value ∈ values ∨ value ∈ free ∨ value = "" := by
  induction values generalizing free with
  | nil => cases h
  | cons first earlier ih =>
      unfold replaceBack at h
      split at h
      · rcases List.mem_cons.mp h with rfl | h
        · cases free with
          | nil => exact .inr (.inr rfl)
          | cons color rest => exact .inr (.inl List.mem_cons_self)
        · rcases ih h with hmem | hmem | hempty
          · exact .inl (List.mem_cons_of_mem _ hmem)
          · exact .inr (.inl (List.mem_of_mem_tail hmem))
          · exact .inr (.inr hempty)
      · rcases List.mem_cons.mp h with rfl | h
        · exact .inl List.mem_cons_self
        · rcases ih h with hmem | hrest
          · exact .inl (List.mem_cons_of_mem _ hmem)
          · exact .inr hrest

theorem distinct_cons_iff {value : String} {values : List String} :
    Distinct (value :: values) ↔ (contains value = true → value ∉ values) ∧ Distinct values := by
  unfold Distinct
  cases hvalue : contains value with
  | false => simp [hvalue]
  | true => simp [hvalue, List.nodup_cons]

theorem distinct_reverse_iff {values : List String} :
    Distinct values.reverse ↔ Distinct values := by
  rw [Distinct, List.filter_reverse, List.nodup_reverse, Distinct]

/-- What is given out is new, so no colour is there twice in the end. -/
theorem distinct_replaceBack {free values : List String} (hnodup : free.Nodup)
    (hnew : ∀ c ∈ free, c ∉ values) : Distinct (replaceBack free values) := by
  induction values generalizing free with
  | nil => exact List.nodup_nil
  | cons value earlier ih =>
      have hnew' : ∀ c ∈ free, c ∉ earlier := fun c hc hmem =>
        hnew c hc (List.mem_cons_of_mem _ hmem)
      unfold replaceBack
      split
      · have htail : ∀ c ∈ free.tail, c ∉ earlier := fun c hc => hnew' c (List.mem_of_mem_tail hc)
        refine distinct_cons_iff.mpr ⟨?_, ih hnodup.tail htail⟩
        intro hcolor hmem
        cases free with
        | nil => exact ne_empty_of_contains hcolor rfl
        | cons color rest =>
            rcases mem_of_mem_replaceBack hmem with hmem | hmem | hempty
            · exact hnew' color List.mem_cons_self hmem
            · exact (List.nodup_cons.mp hnodup).1 hmem
            · exact ne_empty_of_contains hcolor hempty
      · rename_i hkeep
        refine distinct_cons_iff.mpr ⟨?_, ih hnodup hnew'⟩
        intro hcolor hmem
        rcases mem_of_mem_replaceBack hmem with hmem | hmem | hempty
        · exact hkeep (by simp [hcolor, hmem])
        · exact hnew value hmem List.mem_cons_self
        · exact ne_empty_of_contains hcolor hempty

theorem distinct_distinguish (values : List String) : Distinct (distinguish values) := by
  rw [distinguish_eq, distinct_reverse_iff]
  refine distinct_replaceBack (nodup_colors.filter _) ?_
  intro c hc
  simpa using (List.mem_filter.mp hc).2

theorem replaceBack_eq_self {values : List String} (h : Distinct values) (free : List String) :
    replaceBack free values = values := by
  induction values with
  | nil => rfl
  | cons value earlier ih =>
      obtain ⟨hnew, hrest⟩ := distinct_cons_iff.mp h
      have hkeep : (contains value && earlier.contains value) = false := by
        cases hvalue : contains value with
        | false => rfl
        | true => simpa using hnew hvalue
      rw [replaceBack, hkeep, if_neg Bool.false_ne_true, ih hrest]

theorem distinguish_eq_self {values : List String} (h : Distinct values) :
    distinguish values = values := by
  rw [distinguish_eq, replaceBack_eq_self (distinct_reverse_iff.mpr h), List.reverse_reverse]

@[simp] theorem distinguish_distinguish (values : List String) :
    distinguish (distinguish values) = distinguish values :=
  distinguish_eq_self (distinct_distinguish values)

end Palette

end Stencil
