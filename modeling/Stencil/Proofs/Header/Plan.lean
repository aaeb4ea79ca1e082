import Stencil.Header.Plan
import Stencil.Proofs.Header.Grammar

/-!
# Where a plan stops

`plan.Leaves past places` says what a plan may still ask for behind the tokens `past`. A plan
stops only behind tokens that it can go on from, and asks only for what it can go on with
(`offersAt_of_mem_stops`). If it fails, it stops behind as many of its tokens as it can go
on from, and asks there for all that it can go on with (`MarksShow.asksForAll`). The furthest
stop is therefore there (`furthest_stops`).
-/

namespace Stencil

namespace Header

variable {past rest tokens : List Token} {places more : List Place} {place : Place}
  {token : Token} {e : Expectation} {pos : Nat}

/-! ### The furthest stop -/

theorem pos_merge (s t : Stop) : (s.merge t).pos = max s.pos t.pos := by
  unfold Stop.merge
  split
  · omega
  · split
    · omega
    · show s.pos = max s.pos t.pos
      omega

/-- The stop that is left behind takes what it asks for along with it. -/
theorem mem_asked_merge {s t : Stop} :
    e ∈ (s.merge t).asked ↔ t.pos ≤ s.pos ∧ e ∈ s.asked ∨ s.pos ≤ t.pos ∧ e ∈ t.asked := by
  unfold Stop.merge
  split
  · next hlt => simp [Nat.not_le_of_lt hlt, Nat.le_of_lt hlt]
  · next hle =>
      split
      · next hlt => simp [Nat.not_le_of_lt hlt, Nat.le_of_lt hlt]
      · next hge =>
          have heq : s.pos = t.pos := by omega
          by_cases he : e ∈ s.asked <;> simp [heq, he]

/-- The furthest of some stops is as far as any of them, and asks for what those ask for that
are as far. -/
theorem furthest_cons (stop : Stop) (stops : List Stop) :
    ∃ last, furthest (stop :: stops) = some last ∧
      (∀ s ∈ stop :: stops, s.pos ≤ last.pos) ∧
      (∃ s ∈ stop :: stops, s.pos = last.pos) ∧
      ∀ e, e ∈ last.asked ↔ ∃ s ∈ stop :: stops, s.pos = last.pos ∧ e ∈ s.asked := by
  induction stops generalizing stop with
  | nil => exact ⟨stop, rfl, by simp, by simp, by simp⟩
  | cons next stops ih =>
      obtain ⟨last, hlast, hle, ⟨s, hs, hpos⟩, hasked⟩ := ih next
      have hmax := pos_merge stop last
      refine ⟨stop.merge last, by rw [furthest, hlast], ?_, ?_, ?_⟩
      · rw [List.forall_mem_cons]
        refine ⟨by omega, fun t ht => ?_⟩
        have := hle t ht
        omega
      · by_cases hstop : (stop.merge last).pos = stop.pos
        · exact ⟨stop, List.mem_cons_self, hstop.symm⟩
        · exact ⟨s, List.mem_cons_of_mem _ hs, by omega⟩
      · intro e
        rw [mem_asked_merge, List.exists_mem_cons_iff, hasked]
        constructor
        · rintro (⟨hpos, he⟩ | ⟨hpos, t, ht, htpos, he⟩)
          · exact .inl ⟨by omega, he⟩
          · exact .inr ⟨t, ht, by omega, he⟩
        · rintro (⟨hpos, he⟩ | ⟨t, ht, htpos, he⟩)
          · exact .inl ⟨by omega, he⟩
          · have := hle t ht
            exact .inr ⟨by omega, t, ht, by omega, he⟩

/-! ### What a plan may still ask for -/

theorem rest?_append (way : List Place) (past more : List Token) :
    rest? way (past ++ more) = (rest? way past).bind (rest? · more) := by
  induction past generalizing way with
  | nil => rw [List.nil_append, rest?, Option.bind_some]
  | cons token past ih =>
      cases way with
      | nil => rfl
      | cons place way =>
          rw [List.cons_append, rest?, rest?]
          split
          · exact ih way
          · rfl

namespace Plan

variable {plan next first second : Plan} {stop : Stop} {asked : List Expectation}

/-- The lists of places that a plan may ask for, one after the other. -/
def ways : Plan → List (List Place)
  | finish => [[]]
  | take place next => next.ways.map (place :: ·)
  | mark next => next.ways.map (.bang :: ·) ++ next.ways
  | choice first second => first.ways ++ second.ways

/-- Behind the tokens `past` a plan may ask for these places. -/
def Leaves (plan : Plan) (past : List Token) (places : List Place) : Prop :=
  ∃ way ∈ plan.ways, rest? way past = some places

theorem leaves_finish : finish.Leaves past places ↔ past = [] ∧ places = [] := by
  cases past <;> simp [Leaves, ways, rest?, eq_comm]

theorem leaves_take_nil :
    (take place next).Leaves [] places ↔ ∃ more, places = place :: more ∧ next.Leaves [] more := by
  simp [Leaves, ways, rest?, and_comm, eq_comm]

theorem leaves_take_cons :
    (take place next).Leaves (token :: past) places ↔
      place.accepts token = true ∧ next.Leaves past places := by
  by_cases hplace : place.accepts token = true <;> simp [Leaves, ways, rest?, hplace]

theorem leaves_mark :
    (mark next).Leaves past places ↔
      (take .bang next).Leaves past places ∨ next.Leaves past places := by
  simp only [Leaves, ways, List.mem_append, or_and_right, exists_or]

theorem leaves_choice :
    (choice first second).Leaves past places ↔
      first.Leaves past places ∨ second.Leaves past places := by
  simp only [Leaves, ways, List.mem_append, or_and_right, exists_or]

theorem exists_leaves_nil (plan : Plan) : ∃ places, plan.Leaves [] places := by
  induction plan with
  | finish => exact ⟨[], leaves_finish.mpr ⟨rfl, rfl⟩⟩
  | take place next ih =>
      obtain ⟨more, hmore⟩ := ih
      exact ⟨_, leaves_take_nil.mpr ⟨more, rfl, hmore⟩⟩
  | mark next ih =>
      obtain ⟨places, hplaces⟩ := ih
      exact ⟨places, leaves_mark.mpr (.inr hplaces)⟩
  | choice first second ih _ =>
      obtain ⟨places, hplaces⟩ := ih
      exact ⟨places, leaves_choice.mpr (.inl hplaces)⟩

theorem accepts_bang_iff : Place.bang.accepts token = true ↔ token = .bang := by
  cases token <;> simp [Place.accepts]

theorem accepts_mark_of_ne (h : ∀ more, tokens ≠ .bang :: more) :
    (mark next).accepts tokens = next.accepts tokens := by
  rw [accepts]
  exact h

/-- What is asked for at a place is what it begins with. -/
theorem mem_asks_iff : e ∈ place.asks ↔ e.holds [place :: more] = true := by
  cases place <;> cases e <;> simp [Place.asks, Expectation.holds]

/-! ### A stop asks for no more than may follow -/

/-- The plan can go on behind the tokens, and with all that is asked for. -/
def Offers (plan : Plan) (past : List Token) (asked : List Expectation) : Prop :=
  (∃ places, plan.Leaves past places) ∧
    ∀ e ∈ asked, ∃ places, plan.Leaves past places ∧ e.holds [places] = true

theorem Offers.of_leaves (h : plan.Leaves past places)
    (hasked : ∀ e ∈ asked, e.holds [places] = true) : plan.Offers past asked :=
  ⟨⟨places, h⟩, fun e he => ⟨places, h, hasked e he⟩⟩

theorem Offers.mono {past' : List Token} (hoffers : plan.Offers past asked)
    (h : ∀ places, plan.Leaves past places → next.Leaves past' places) :
    next.Offers past' asked := by
  obtain ⟨⟨places, hplaces⟩, hasked⟩ := hoffers
  refine ⟨⟨places, h places hplaces⟩, fun e he => ?_⟩
  obtain ⟨places, hplaces, hholds⟩ := hasked e he
  exact ⟨places, h places hplaces, hholds⟩

theorem offers_take_nil (place : Place) (next : Plan) : (take place next).Offers [] place.asks := by
  obtain ⟨more, hmore⟩ := next.exists_leaves_nil
  exact .of_leaves (leaves_take_nil.mpr ⟨more, rfl, hmore⟩) fun e he => mem_asks_iff.mp he

/-- The stop is behind some of the tokens, which the plan can go on from with all that is asked
for there. -/
def OffersAt (plan : Plan) (pos : Nat) (tokens : List Token) (stop : Stop) : Prop :=
  ∃ past rest, tokens = past ++ rest ∧ stop.pos = pos + past.length ∧ plan.Offers past stop.asked

theorem OffersAt.here (h : plan.Offers [] asked) : plan.OffersAt pos tokens ⟨pos, asked⟩ :=
  ⟨[], tokens, rfl, rfl, h⟩

theorem OffersAt.mono (hoffers : plan.OffersAt pos tokens stop)
    (h : ∀ past places, plan.Leaves past places → next.Leaves past places) :
    next.OffersAt pos tokens stop := by
  obtain ⟨past, rest, hsplit, hpos, hoffers⟩ := hoffers
  exact ⟨past, rest, hsplit, hpos, hoffers.mono (h past)⟩

theorem OffersAt.cons (hoffers : plan.OffersAt (pos + 1) tokens stop)
    (h : ∀ past places, plan.Leaves past places → next.Leaves (token :: past) places) :
    next.OffersAt pos (token :: tokens) stop := by
  obtain ⟨past, rest, rfl, hpos, hoffers⟩ := hoffers
  refine ⟨token :: past, rest, rfl, ?_, hoffers.mono (h past)⟩
  rw [hpos, List.length_cons]
  omega

/-- A plan stops only behind tokens that it can go on from, and asks only for what it can go
on with. -/
theorem offersAt_of_mem_stops (h : stop ∈ plan.stops pos tokens) :
    plan.OffersAt pos tokens stop := by
  fun_induction stops plan pos tokens with
  | case1 => cases h
  | case2 pos token tokens =>
      obtain rfl := List.mem_singleton.mp h
      refine .here (.of_leaves (leaves_finish.mpr ⟨rfl, rfl⟩) ?_)
      simp [Expectation.holds]
  | case3 place next pos =>
      obtain rfl := List.mem_singleton.mp h
      exact .here (offers_take_nil place next)
  | case4 place next pos token tokens hplace ih =>
      exact (ih h).cons fun past places hplaces => leaves_take_cons.mpr ⟨hplace, hplaces⟩
  | case5 place next pos token tokens hplace =>
      obtain rfl := List.mem_singleton.mp h
      exact .here (offers_take_nil place next)
  | case6 next pos tokens ih =>
      exact (ih h).cons fun past places hplaces =>
        leaves_mark.mpr (.inl (leaves_take_cons.mpr ⟨rfl, hplaces⟩))
  | case7 next pos tokens hbang ih =>
      rcases List.mem_cons.mp h with rfl | h
      · refine .here ((offers_take_nil .bang next).mono fun places hplaces => ?_)
        exact leaves_mark.mpr (.inl hplaces)
      · exact (ih h).mono fun past places hplaces => leaves_mark.mpr (.inr hplaces)
  | case8 first second pos tokens haccepts ih =>
      exact (ih h).mono fun past places hplaces => leaves_choice.mpr (.inl hplaces)
  | case9 first second pos tokens haccepts ihFirst ihSecond =>
      rcases List.mem_append.mp h with h | h
      · exact (ihFirst h).mono fun past places hplaces => leaves_choice.mpr (.inl hplaces)
      · exact (ihSecond h).mono fun past places hplaces => leaves_choice.mpr (.inr hplaces)

/-! ### A plan that fails asks for all that may follow -/

/-- Nothing that follows a mark begins like one, so that the first token shows whether the mark
is written. -/
def MarksShow : Plan → Prop
  | finish => True
  | take _ next => next.MarksShow
  | mark next => next.MarksShow ∧ ∀ past places, ¬ next.Leaves (.bang :: past) places
  | choice first second => first.MarksShow ∧ second.MarksShow

/-- Among the tokens, `past` is as far as the plan can go on from. -/
def Stuck (plan : Plan) (past rest : List Token) : Prop :=
  ∀ token ∈ rest.head?, ∀ places, ¬ plan.Leaves (past ++ [token]) places

theorem Stuck.mono {past' : List Token} (hstuck : plan.Stuck past rest)
    (h : ∀ token places, next.Leaves (past' ++ [token]) places →
      plan.Leaves (past ++ [token]) places) : next.Stuck past' rest :=
  fun token htoken places hplaces => hstuck token htoken places (h token places hplaces)

/-- Where the plan fails, it stops behind as many tokens as it can go on from, and asks there for
all that it can go on with. -/
def AsksForAll (plan : Plan) : Prop :=
  ∀ pos past rest places, plan.accepts (past ++ rest) = false → plan.Leaves past places →
    plan.Stuck past rest → ∃ stop ∈ plan.stops pos (past ++ rest), stop.pos = pos + past.length ∧
      ∀ e : Expectation, e.holds [places] = true → e ∈ stop.asked

theorem asksForAll_finish : finish.AsksForAll := by
  intro pos past rest places hfails hleaves _
  obtain ⟨rfl, rfl⟩ := leaves_finish.mp hleaves
  cases rest with
  | nil => cases hfails
  | cons token rest =>
      refine ⟨_, List.mem_singleton_self _, rfl, fun e he => ?_⟩
      cases e <;> simp_all [Expectation.holds]

theorem asksForAll_take (h : next.AsksForAll) : (take place next).AsksForAll := by
  intro pos past rest places hfails hleaves hstuck
  cases past with
  | nil =>
      obtain ⟨more, rfl, hmore⟩ := leaves_take_nil.mp hleaves
      have hstop : ⟨pos, place.asks⟩ ∈ (take place next).stops pos rest := by
        cases rest with
        | nil => exact List.mem_singleton_self _
        | cons token rest =>
            have hplace : ¬ place.accepts token = true := fun hplace =>
              hstuck token rfl more (leaves_take_cons.mpr ⟨hplace, hmore⟩)
            rw [stops, if_neg hplace]
            exact List.mem_singleton_self _
      exact ⟨_, hstop, rfl, fun e he => mem_asks_iff.mpr he⟩
  | cons token past =>
      obtain ⟨hplace, hnext⟩ := leaves_take_cons.mp hleaves
      have hfails : next.accepts (past ++ rest) = false := by
        simpa [accepts, hplace] using hfails
      obtain ⟨stop, hstop, hpos, hasked⟩ := h (pos + 1) past rest places hfails hnext
        (hstuck.mono fun token places h => leaves_take_cons.mpr ⟨hplace, h⟩)
      refine ⟨stop, ?_, ?_, hasked⟩
      · rwa [List.cons_append, stops, if_pos hplace]
      · rw [hpos, List.length_cons]
        omega

theorem stops_mark_of_ne (h : ∀ more, tokens ≠ .bang :: more) :
    (mark next).stops pos tokens = ⟨pos, [.bang]⟩ :: next.stops pos tokens := by
  rw [stops]
  exact h

/-- Where the mark is there, the plan goes on from it and not without it. -/
theorem leaves_take_of_bang (hmark : ∀ past places, ¬ next.Leaves (.bang :: past) places)
    (hbang : past ++ rest = .bang :: tokens) (hleaves : (mark next).Leaves past places)
    (hstuck : (take .bang next).Stuck past rest) : (take .bang next).Leaves past places := by
  refine (leaves_mark.mp hleaves).resolve_right fun hnext => ?_
  cases past with
  | nil =>
      obtain ⟨more, hmore⟩ := next.exists_leaves_nil
      obtain rfl : rest = .bang :: tokens := hbang
      exact hstuck .bang rfl more (leaves_take_cons.mpr ⟨rfl, hmore⟩)
  | cons token past =>
      obtain rfl := (List.cons_eq_cons.mp hbang).1
      exact hmark past places hnext

theorem asksForAll_mark (hmark : ∀ past places, ¬ next.Leaves (.bang :: past) places)
    (h : next.AsksForAll) : (mark next).AsksForAll := by
  intro pos past rest places hfails hleaves hstuck
  by_cases hbang : ∃ tokens, past ++ rest = .bang :: tokens
  · -- The mark is taken like any other token.
    obtain ⟨tokens, htokens⟩ := hbang
    have htake : (take .bang next).AsksForAll := asksForAll_take h
    have hstuck : (take .bang next).Stuck past rest :=
      hstuck.mono fun token places h => leaves_mark.mpr (.inl h)
    have hleaves := leaves_take_of_bang hmark htokens hleaves hstuck
    specialize htake pos past rest places
    rw [htokens] at hfails htake ⊢
    exact htake hfails hleaves hstuck
  · have hne : ∀ tokens, past ++ rest ≠ .bang :: tokens := fun tokens h => hbang ⟨tokens, h⟩
    rw [stops_mark_of_ne hne]
    rcases leaves_mark.mp hleaves with hleaves | hleaves
    · cases past with
      | nil =>
          obtain ⟨more, rfl, -⟩ := leaves_take_nil.mp hleaves
          exact ⟨_, List.mem_cons_self, rfl, fun e he => mem_asks_iff.mpr he⟩
      | cons token past =>
          obtain rfl := accepts_bang_iff.mp (leaves_take_cons.mp hleaves).1
          exact absurd rfl (hne _)
    · rw [accepts_mark_of_ne hne] at hfails
      obtain ⟨stop, hstop, hpos, hasked⟩ := h pos past rest places hfails hleaves
        (hstuck.mono fun token places h => leaves_mark.mpr (.inr h))
      exact ⟨stop, List.mem_cons_of_mem _ hstop, hpos, hasked⟩

/-- If both alternatives fail, the stops of both are kept. -/
theorem asksForAll_choice (hfirst : first.AsksForAll) (hsecond : second.AsksForAll) :
    (choice first second).AsksForAll := by
  intro pos past rest places hfails hleaves hstuck
  obtain ⟨hfirstFails, hsecondFails⟩ : first.accepts (past ++ rest) = false ∧
      second.accepts (past ++ rest) = false := by
    simpa [accepts] using hfails
  rw [stops, if_neg (Bool.not_eq_true _ ▸ hfirstFails)]
  rcases leaves_choice.mp hleaves with hleaves | hleaves
  · obtain ⟨stop, hstop, hpos, hasked⟩ := hfirst pos past rest places hfirstFails hleaves
      (hstuck.mono fun token places h => leaves_choice.mpr (.inl h))
    exact ⟨stop, List.mem_append_left _ hstop, hpos, hasked⟩
  · obtain ⟨stop, hstop, hpos, hasked⟩ := hsecond pos past rest places hsecondFails hleaves
      (hstuck.mono fun token places h => leaves_choice.mpr (.inr h))
    exact ⟨stop, List.mem_append_right _ hstop, hpos, hasked⟩

theorem MarksShow.asksForAll (hmarks : plan.MarksShow) : plan.AsksForAll := by
  induction plan with
  | finish => exact asksForAll_finish
  | take place next ih => exact asksForAll_take (ih hmarks)
  | mark next ih => exact asksForAll_mark hmarks.2 (ih hmarks.1)
  | choice first second ihFirst ihSecond =>
      exact asksForAll_choice (ihFirst hmarks.1) (ihSecond hmarks.2)

/-! ### The furthest stop of a plan -/

theorem Leaves.of_append {more : List Token} (h : plan.Leaves (past ++ more) places) :
    ∃ places', plan.Leaves past places' := by
  obtain ⟨way, hway, hrest⟩ := h
  rw [rest?_append] at hrest
  obtain ⟨places', hplaces', -⟩ := Option.bind_eq_some_iff.mp hrest
  exact ⟨places', way, hway, hplaces'⟩

/-- A plan does not stop behind the tokens where it is stuck. -/
theorem Stuck.eq_append {past' rest' : List Token} (hstuck : plan.Stuck past rest)
    (hsplit : past ++ rest = past' ++ rest') (h : plan.Leaves past' places) :
    ∃ more, past = past' ++ more := by
  rcases List.append_eq_append_iff.mp hsplit with ⟨more, rfl, hrest⟩ | ⟨more, hpast, -⟩
  · cases more with
    | nil => exact ⟨[], by simp⟩
    | cons token more =>
        have htoken : token ∈ rest.head? := by rw [hrest]; rfl
        rw [← List.singleton_append, ← List.append_assoc] at h
        obtain ⟨places', h⟩ := h.of_append
        exact absurd h (hstuck token htoken places')
  · exact ⟨more, hpast⟩

/-- The furthest stop of a plan that fails is where it is stuck. It asks for exactly what could
follow there. -/
theorem furthest_stops (hmarks : plan.MarksShow) (hfails : plan.accepts (past ++ rest) = false)
    (hleaves : plan.Leaves past places) (hstuck : plan.Stuck past rest) :
    ∃ stop, furthest (plan.stops 0 (past ++ rest)) = some stop ∧ stop.pos = past.length ∧
      ∀ e : Expectation, e ∈ stop.asked ↔
        ∃ places, plan.Leaves past places ∧ e.holds [places] = true := by
  obtain ⟨here, hhere, hpos, -⟩ := hmarks.asksForAll 0 past rest places hfails hleaves hstuck
  rw [Nat.zero_add] at hpos
  obtain ⟨first, others, hstops⟩ := List.exists_cons_of_ne_nil (List.ne_nil_of_mem hhere)
  obtain ⟨last, hlast, hle, ⟨far, hfar, hfarpos⟩, hasked⟩ := furthest_cons first others
  rw [← hstops] at hlast hle hfar hasked
  have hbehind {stop : Stop} (hstop : stop ∈ plan.stops 0 (past ++ rest)) :
      ∃ past' more, past = past' ++ more ∧ stop.pos = past'.length ∧
        plan.Offers past' stop.asked := by
    obtain ⟨past', rest', hsplit, hpos', hoffers⟩ := offersAt_of_mem_stops hstop
    obtain ⟨⟨places', hplaces'⟩, -⟩ := id hoffers
    obtain ⟨more, hmore⟩ := hstuck.eq_append hsplit hplaces'
    exact ⟨past', more, hmore, by rw [hpos', Nat.zero_add], hoffers⟩
  have hend : last.pos = past.length := by
    obtain ⟨past', more, hmore, hpos', -⟩ := hbehind hfar
    have hlength := congrArg List.length hmore
    rw [List.length_append] at hlength
    have := hle here hhere
    omega
  refine ⟨last, hlast, hend, fun e => ?_⟩
  rw [hasked]
  constructor
  · rintro ⟨stop, hstop, hstoppos, he⟩
    obtain ⟨past', more, hmore, hpos', -, hoffers⟩ := hbehind hstop
    have hnil : more = [] := by
      have hlength := congrArg List.length hmore
      rw [List.length_append] at hlength
      exact List.eq_nil_of_length_eq_zero (by omega)
    rw [hmore, hnil, List.append_nil]
    exact hoffers e he
  · rintro ⟨places', hplaces', hholds⟩
    obtain ⟨stop, hstop, hstoppos, hstopasked⟩ :=
      hmarks.asksForAll 0 past rest places' hfails hplaces' hstuck
    exact ⟨stop, hstop, by omega, hstopasked e hholds⟩

/-! ### The plan of a header -/

theorem accepts_iff (hmarks : plan.MarksShow) :
    plan.accepts tokens = true ↔ plan.Leaves tokens [] := by
  fun_induction accepts plan tokens with
  | case1 tokens => simp [leaves_finish]
  | case2 place next => simp [leaves_take_nil]
  | case3 place next token tokens ih =>
      rw [leaves_take_cons, Bool.and_eq_true, ih hmarks]
  | case4 next tokens ih =>
      rw [ih hmarks.1, leaves_mark, leaves_take_cons, or_iff_left (hmarks.2 tokens []),
        accepts_bang_iff, eq_self, true_and]
  | case5 next tokens hbang ih =>
      rw [ih hmarks.1, leaves_mark, or_iff_right]
      cases tokens with
      | nil => simp [leaves_take_nil]
      | cons token tokens =>
          rw [leaves_take_cons, accepts_bang_iff, not_and]
          rintro rfl
          exact absurd rfl (hbang tokens)
  | case6 first second tokens ihFirst ihSecond =>
      rw [Bool.or_eq_true, ihFirst hmarks.1, ihSecond hmarks.2, leaves_choice]

theorem marksShow_header (a b : Bool) : (header a b).MarksShow := by
  cases a <;> cases b <;>
    simp [header, body, spared, named, relationFields, entityFields, style, MarksShow,
      leaves_take_cons, Place.accepts]

/-- The plan of a header asks for the forms of a header. -/
theorem leaves_header_iff (a b : Bool) :
    (header a b).Leaves past places ↔ places ∈ Form.rests past := by
  have hways : ∀ way, way ∈ (header a b).ways ↔ way ∈ Form.all.map Form.places := by
    have hsubset : (header a b).ways ⊆ Form.all.map Form.places ∧
        Form.all.map Form.places ⊆ (header a b).ways := by
      cases a <;> cases b <;> decide
    exact fun way => ⟨fun h => hsubset.1 h, fun h => hsubset.2 h⟩
  simp only [Leaves, hways, Form.rests, List.mem_filterMap, List.mem_map]
  constructor
  · rintro ⟨_, ⟨form, hform, rfl⟩, hrest⟩
    exact ⟨form, hform, hrest⟩
  · rintro ⟨form, hform, hrest⟩
    exact ⟨_, ⟨form, hform, rfl⟩, hrest⟩

end Plan

/-! ### What may follow the tokens of a header -/

/-- Nothing is left of a form just when the tokens spell a header. -/
theorem nil_mem_rests_iff : [] ∈ Form.rests tokens ↔ ∃ header, Spells tokens header := by
  simp only [Form.rests, List.mem_filterMap, rest?_eq_some, List.append_nil]
  constructor
  · rintro ⟨form, -, front, rfl, hfits⟩
    obtain ⟨header, hread⟩ := Form.exists_read_of_fits hfits
    exact ⟨header, spells_of_read hread⟩
  · rintro ⟨header, hspells⟩
    obtain ⟨form, hread⟩ := exists_read_of_spells hspells
    exact ⟨form, form.mem_all, _, rfl, Form.fits_of_read hread⟩

/-- Tokens can be gone on with at a place just when the place is the first of what is left. -/
theorem begins_append_singleton_iff
    (h : ∀ other : Place, other.accepts token = true ↔ other = place) :
    Begins (tokens ++ [token]) ↔ ∃ more, place :: more ∈ Form.rests tokens := by
  simp only [begins_iff_rests_ne_nil, ne_eq, List.eq_nil_iff_forall_not_mem, not_forall, not_not,
    Form.rests, List.mem_filterMap, rest?_append, Option.bind_eq_some_iff]
  constructor
  · rintro ⟨_, form, hform, rest, hrest, hnext⟩
    cases rest with
    | nil => cases hnext
    | cons other more =>
        rw [rest?] at hnext
        split at hnext
        · next hother => exact ⟨more, form, hform, by rw [hrest, (h other).mp hother]⟩
        · cases hnext
  · rintro ⟨more, form, hform, hrest⟩
    exact ⟨more, form, hform, _, hrest, by rw [rest?, if_pos ((h place).mpr rfl), rest?]⟩

end Header

end Stencil
