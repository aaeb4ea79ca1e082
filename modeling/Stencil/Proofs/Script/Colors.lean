import Mathlib.Data.List.Dedup
import Mathlib.Data.List.Find
import Mathlib.Data.List.Zip
import Stencil.Proofs.Script.Passes

/-!
# The colours that values end up with

`Palette.replaceBack` read position by position: what is no repeat stays, and a repeat gets the
first of the free colours that stands nowhere behind it (`getElem?_replaceBack_repeat`), or
nothing. As many repeats get nothing as there are repeats beyond the free colours, and the free
colours are those of the palette beyond the ones that occur (`countP_emptied`). So nothing is lost
as long as there are ten coloured values or fewer.
-/

namespace Stencil

namespace Palette

variable {free earlier values : List String} {value : String} {i : Nat}

theorem replaceBack_cons_repeat (hvalue : contains value = true) (hmem : value ∈ earlier) :
    replaceBack free (value :: earlier) = free.headD "" :: replaceBack free.tail earlier := by
  rw [replaceBack, if_pos]
  simpa [hvalue] using hmem

theorem replaceBack_cons_keep (h : contains value = true → value ∉ earlier) :
    replaceBack free (value :: earlier) = value :: replaceBack free earlier := by
  rw [replaceBack, if_neg]
  simpa using h

@[simp] theorem length_replaceBack (free values : List String) :
    (replaceBack free values).length = values.length := by
  induction values generalizing free with
  | nil => rfl
  | cons value earlier ih =>
      unfold replaceBack
      split <;> simp [ih]

/-! ### By position -/

theorem getElem?_replaceBack_keep (hi : values[i]? = some value)
    (h : contains value = true → value ∉ values.drop (i + 1)) :
    (replaceBack free values)[i]? = some value := by
  induction values generalizing free i with
  | nil => cases hi
  | cons first earlier ih =>
      cases i with
      | zero =>
          obtain rfl := Option.some.inj hi
          rw [replaceBack_cons_keep (by simpa using h)]
          rfl
      | succ i =>
          unfold replaceBack
          split <;> exact ih hi h

theorem find?_notMem_cons {c : String} (h : c ∉ free) (given : List String) :
    free.find? (· ∉ c :: given) = free.find? (· ∉ given) := by
  refine List.find?_congr fun d hd => ?_
  have hne : d ≠ c := fun heq => h (heq ▸ hd)
  simp only [List.mem_cons, hne, false_or]

/-- The colours that are given out are no values, so they stand behind a repeat only where they
have been given out. -/
theorem getElem?_replaceBack_repeat (hnodup : free.Nodup) (hnew : ∀ c ∈ free, c ∉ values)
    (hi : values[i]? = some value) (hvalue : contains value = true)
    (hmem : value ∈ values.drop (i + 1)) :
    (replaceBack free values)[i]? =
      some ((free.find? (· ∉ (replaceBack free values).take i)).getD "") := by
  induction values generalizing free i with
  | nil => cases hi
  | cons first earlier ih =>
      have hnew' : ∀ c ∈ free, c ∉ earlier := fun c hc h => hnew c hc (List.mem_cons_of_mem _ h)
      cases i with
      | zero =>
          obtain rfl := Option.some.inj hi
          rw [replaceBack_cons_repeat hvalue (by simpa using hmem)]
          cases free <;> rfl
      | succ i =>
          by_cases hfirst : contains first = true ∧ first ∈ earlier
          · have htail : ∀ c ∈ free.tail, c ∉ earlier :=
              fun c hc => hnew' c (List.mem_of_mem_tail hc)
            rw [replaceBack_cons_repeat hfirst.1 hfirst.2, List.getElem?_cons_succ,
              ih hnodup.tail htail hi hmem, List.take_succ_cons]
            cases free with
            | nil => rfl
            | cons color rest =>
                have hcolor : color ∉ rest := (List.nodup_cons.mp hnodup).1
                rw [List.headD_cons, List.tail_cons, List.find?_cons_of_neg (by simp),
                  find?_notMem_cons hcolor]
          · rw [replaceBack_cons_keep (fun hcolor h => hfirst ⟨hcolor, h⟩),
              List.getElem?_cons_succ, ih hnodup hnew' hi hmem, List.take_succ_cons]
            have hnot : first ∉ free := fun h => hnew first h List.mem_cons_self
            rw [find?_notMem_cons hnot]

/-! ### How many values become empty -/

/-- How many values are not empty and are replaced by the empty value. -/
def emptied (before after : List String) : Nat :=
  (before.zip after).countP fun (b, a) => b ≠ "" ∧ a = ""

theorem emptied_cons (b a : String) (before after : List String) :
    emptied (b :: before) (a :: after) =
      emptied before after + if b ≠ "" ∧ a = "" then 1 else 0 := by
  simp [emptied, List.countP_cons]

theorem emptied_reverse {before after : List String} (h : before.length = after.length) :
    emptied before.reverse after.reverse = emptied before after := by
  have hzip : before.reverse.zip after.reverse = (before.zip after).reverse := by
    rw [List.zip_eq_zipWith, List.zip_eq_zipWith, List.reverse_zipWith h]
  rw [emptied, hzip, List.countP_reverse, emptied]

/-- The repeats that no colour is left for. -/
theorem emptied_replaceBack (hfree : ∀ c ∈ free, c ≠ "") :
    emptied values (replaceBack free values) =
      (values.filter contains).length - (values.filter contains).dedup.length - free.length := by
  induction values generalizing free with
  | nil => simp [emptied, replaceBack]
  | cons value earlier ih =>
      have hle := (List.dedup_sublist (earlier.filter contains)).length_le
      cases hvalue : contains value with
      | false =>
          rw [replaceBack_cons_keep (by simp [hvalue]), emptied_cons, ih hfree,
            List.filter_cons_of_neg (by simp [hvalue]), if_neg (by simp), Nat.add_zero]
      | true =>
          have hmem : value ∈ earlier.filter contains ↔ value ∈ earlier := by
            simp [hvalue]
          have hne := ne_empty_of_contains hvalue
          rw [List.filter_cons_of_pos hvalue]
          by_cases hrepeat : value ∈ earlier
          · rw [replaceBack_cons_repeat hvalue hrepeat, emptied_cons,
              List.dedup_cons_of_mem (hmem.mpr hrepeat),
              ih fun c hc => hfree c (List.mem_of_mem_tail hc), List.length_cons]
            cases free with
            | nil =>
                simp [hne]
                omega
            | cons color rest =>
                simp [hfree color List.mem_cons_self]
                omega
          · rw [replaceBack_cons_keep (fun _ => hrepeat), emptied_cons, ih hfree,
              List.dedup_cons_of_notMem (mt hmem.mp hrepeat)]
            simp

/-! ### From the first value on -/

/-- The place of a position in the list from its last value back. -/
theorem getElem?_distinguish (hi : i < values.length) :
    (distinguish values)[i]? =
      (replaceBack (unused values) values.reverse)[values.length - 1 - i]? := by
  rw [distinguish_eq, List.getElem?_reverse (by simpa using hi), length_replaceBack,
    List.length_reverse]

theorem getElem?_reverse_of_eq_some (h : values[i]? = some value) :
    values.reverse[values.length - 1 - i]? = some value := by
  obtain ⟨hi, -⟩ := List.getElem?_eq_some_iff.mp h
  have hback : values.length - 1 - (values.length - 1 - i) = i := by omega
  rw [List.getElem?_reverse (by omega), hback, h]

theorem mem_drop_reverse_iff (hi : i < values.length) :
    value ∈ values.reverse.drop (values.length - 1 - i + 1) ↔ value ∈ values.take i := by
  have hback : values.length - (values.length - 1 - i + 1) = i := by omega
  rw [List.drop_reverse, hback, List.mem_reverse]

theorem distinguish_keep (h : values[i]? = some value)
    (hkeep : value ∉ colors ∨ value ∉ values.take i) : (distinguish values)[i]? = some value := by
  obtain ⟨hi, -⟩ := List.getElem?_eq_some_iff.mp h
  rw [getElem?_distinguish hi]
  refine getElem?_replaceBack_keep (getElem?_reverse_of_eq_some h) ?_
  intro hvalue
  rw [mem_drop_reverse_iff hi]
  exact hkeep.resolve_left (not_not_intro (contains_iff.mp hvalue))

theorem distinguish_repeat (h : values[i]? = some value) (hvalue : value ∈ colors)
    (hrepeat : value ∈ values.take i) :
    (distinguish values)[i]? = some
      ((colors.find? fun c => c ∉ values ∧ c ∉ (distinguish values).drop (i + 1)).getD "") := by
  obtain ⟨hi, -⟩ := List.getElem?_eq_some_iff.mp h
  have hnew : ∀ c ∈ unused values, c ∉ values.reverse := by
    intro c hc
    simpa using (List.mem_filter.mp hc).2
  have hgiven : ∀ c, c ∈ (replaceBack (unused values) values.reverse).take (values.length - 1 - i) ↔
      c ∈ (distinguish values).drop (i + 1) := by
    intro c
    have hback : values.length - (i + 1) = values.length - 1 - i := by omega
    rw [distinguish_eq, List.drop_reverse, length_replaceBack, List.length_reverse, hback,
      List.mem_reverse]
  have hfree : (unused values).Nodup := nodup_colors.filter _
  rw [getElem?_distinguish hi, getElem?_replaceBack_repeat hfree hnew
    (getElem?_reverse_of_eq_some h) (contains_iff.mpr hvalue)
    ((mem_drop_reverse_iff hi).mpr hrepeat)]
  simp only [hgiven]
  rw [unused, List.find?_filter]
  simp

/-- The colours that occur and those that do not are all there are. -/
theorem length_dedup_add_length_unused (values : List String) :
    (values.filter contains).dedup.length + (unused values).length = colors.length := by
  have hperm : (values.filter contains).dedup.Perm (colors.filter (values.contains ·)) := by
    rw [List.perm_ext_iff_of_nodup (List.nodup_dedup _) (nodup_colors.filter _)]
    intro c
    simp only [List.mem_dedup, List.mem_filter, contains_iff, List.contains_iff_mem]
    exact and_comm
  rw [hperm.length_eq, unused, ← List.length_eq_length_filter_add]

theorem emptied_distinguish (values : List String) :
    emptied values (distinguish values) = values.countP contains - colors.length := by
  have hfree : ∀ c ∈ unused values, c ≠ "" :=
    fun c hc => ne_empty_of_contains (contains_iff.mpr (List.mem_filter.mp hc).1)
  have hback : emptied values.reverse.reverse
      (replaceBack (unused values) values.reverse).reverse =
        emptied values.reverse (replaceBack (unused values) values.reverse) :=
    emptied_reverse (by simp)
  rw [List.reverse_reverse, ← distinguish_eq] at hback
  have hfilter := (List.reverse_perm values).filter contains
  rw [hback, emptied_replaceBack hfree, hfilter.length_eq, hfilter.dedup.length_eq, Nat.sub_sub,
    length_dedup_add_length_unused, List.countP_eq_length_filter]

end Palette

/-- Take any values. One that is no colour, or the first of its colour, stays at its position; the
repeat of a colour is replaced by the first colour that is not among the values and has not been
given to a repeat behind it, or by the empty value if there is none. No colour is there twice
then, so a second time changes nothing, and of the colours that the values had only those beyond
ten are lost. -/
theorem distinctColors_by_position (name : String) (values : List String) :
    let after := Pass.distinctColors.apply name values
    after.length = values.length ∧
      (∀ i value, values[i]? = some value →
        value ∉ Palette.colors ∨ value ∉ values.take i → after[i]? = some value) ∧
      (∀ i value, values[i]? = some value → value ∈ Palette.colors → value ∈ values.take i →
        after[i]? = some
          ((Palette.colors.find? fun c => c ∉ values ∧ c ∉ after.drop (i + 1)).getD "")) ∧
      (∀ c ∈ Palette.colors, after.count c ≤ 1) ∧
      ((values.zip after).countP fun (b, a) => b ≠ "" ∧ a = "") =
        values.countP (· ∈ Palette.colors) - 10 ∧
      ∀ other, Pass.distinctColors.apply other after = after := by
  intro after
  refine ⟨Palette.length_distinguish values, fun i value => Palette.distinguish_keep,
    fun i value => Palette.distinguish_repeat, ?_, ?_,
    fun other => Palette.distinguish_distinguish values⟩
  · intro c hc
    have hdistinct := Palette.distinct_distinguish values
    have hcount := List.nodup_iff_count_le_one.mp hdistinct c
    rwa [List.count_filter (Palette.contains_iff.mpr hc)] at hcount
  · have hcolors : values.countP (· ∈ Palette.colors) = values.countP Palette.contains :=
      List.countP_congr fun c _ => by simp [Palette.contains_iff]
    rw [hcolors]
    exact Palette.emptied_distinguish values

/-- All colours but black, and three more times red, before and behind a value that is no colour. -/
def crowded : List String := Palette.colors.tail ++ ["red", "mauve", "red", "red"]

/-- The first red stays, the last one becomes black, and nothing is left for the two between. -/
theorem distinctColors_by_position_crowded :
    let after := Pass.distinctColors.apply "badge" crowded
    after[1]? = some "red" ∧ after[10]? = some "mauve" ∧ after[12]? = some "black" ∧
      after[11]? = some "" ∧ after[9]? = some "" ∧
      ((crowded.zip after).countP fun (b, a) => b ≠ "" ∧ a = "") = 2 ∧
      Pass.distinctColors.apply "other" after = after := by
  obtain ⟨-, hkeep, hrepeat, -, hcount, hagain⟩ := distinctColors_by_position "badge" crowded
  refine ⟨hkeep 1 "red" (by decide) (.inr (by decide)),
    hkeep 10 "mauve" (by decide) (.inl (by decide)), ?_, ?_, ?_, hcount.trans (by decide),
    hagain "other"⟩
  · rw [hrepeat 12 "red" (by decide) (by decide) (by decide)]
    decide
  · rw [hrepeat 11 "red" (by decide) (by decide) (by decide)]
    decide
  · rw [hrepeat 9 "red" (by decide) (by decide) (by decide)]
    decide

end Stencil
