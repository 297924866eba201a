import BeenHere.PlaceRecord

/-!
# Callers who are not signed in

`Places.visit` and `Places.rate` make up a name for a caller who is not signed in from the present
size of the collection that it goes into: `Anonymous1`, `Anonymous2` and so on among the visitors,
`1`, `2` and so on among the ratings. From a place without visitors and ratings, whatever signed-in
callers do in between, no made-up number is above the size of its collection (`Numbered`), so the
next one is new (`madeUp_of_calls`).
-/

set_option autoImplicit false
set_option relaxedAutoImplicit false

namespace BeenHere

open Firebase

/-- A name that `Places.visit` makes up. -/
def anonymousName (number : ℕ) : String := "Anonymous" ++ decimal number

theorem anonymousName_injective : Function.Injective anonymousName :=
  fun _ _ h ↦ decimal_injective ((String.append_right_inj _).mp h)

/-- A uid that could not have been made up. -/
def NotMadeUp (uid : String) : Prop :=
  (∀ number, uid ≠ anonymousName number) ∧ ∀ number, uid ≠ decimal number

namespace Place

/-- No visitor is listed twice, and every made-up number is at most the size of its collection. -/
structure Numbered (place : Place) : Prop where
  nodup : place.visitors.Nodup
  visitors : ∀ number, anonymousName number ∈ place.visitors → number ≤ place.visitors.length
  ratings : ∀ number, decimal number ∈ place.ratings → number ≤ place.ratings.keys.card

variable {place : Place}

theorem Numbered.visitName_notMem (h : place.Numbered) :
    Places.visitName none place ∉ place.visitors :=
  fun hmem ↦ Nat.not_succ_le_self _ (h.visitors (place.visitors.length + 1) hmem)

theorem Numbered.rateName_notMem (h : place.Numbered) :
    Places.rateName none place ∉ place.ratings :=
  fun hmem ↦ Nat.not_succ_le_self _ (h.ratings (place.ratings.keys.card + 1) hmem)

/-- A further visitor, whose name is made up from the size or not made up at all. -/
theorem Numbered.append (h : place.Numbered) {name : String} (hname : name ∉ place.visitors)
    (hnumber : ∀ number, name = anonymousName number → number ≤ place.visitors.length + 1) :
    Numbered { place with visitors := place.visitors ++ [name] } where
  nodup := List.nodup_append.mpr ⟨h.nodup, List.nodup_singleton _, fun other hother last hlast ↦ by
    rw [List.mem_singleton.mp hlast]
    exact fun heq ↦ hname (heq ▸ hother)⟩
  visitors number hmem := by
    rw [List.length_append, List.length_singleton]
    rcases List.mem_append.mp hmem with hold | hnew
    · exact (h.visitors number hold).trans (Nat.le_succ _)
    · exact hnumber number (List.mem_singleton.mp hnew).symm
  ratings := h.ratings

/-- A rating under a name that is made up from the size or not made up at all. -/
theorem Numbered.rate (h : place.Numbered) {name : String}
    (hnumber : ∀ number, name = decimal number → number ≤ (insert name place.ratings.keys).card)
    (rating : ℤ) : (place.rate name rating).Numbered where
  nodup := h.nodup
  visitors := h.visitors
  ratings number hmem := by
    rw [ratings_rate] at hmem ⊢
    rw [Dictionary.keys_insert]
    rcases Finmap.mem_insert.mp hmem with hsame | hold
    · exact hnumber number hsame.symm
    · exact (h.ratings number hold).trans (Finset.card_le_card (Finset.subset_insert _ _))

/-- Every call keeps the numbering. -/
theorem Numbered.perform (h : place.Numbered) {caller : Option String}
    (hcaller : ∀ uid, caller = some uid → NotMadeUp uid) (call : Call) :
    (Places.perform place (caller, call)).Numbered := by
  cases call with
  | visit =>
    by_cases hmem : Places.visitName caller place ∈ place.visitors
    · rw [Places.perform, Places.visit_of_mem hmem]
      exact h
    · rw [Places.perform, Places.visit_of_notMem hmem]
      refine h.append hmem fun number hname ↦ ?_
      cases caller with
      | none => exact le_of_eq (anonymousName_injective hname).symm
      | some uid => exact absurd hname ((hcaller uid rfl).1 number)
  | rate rating =>
    refine h.rate (fun number hname ↦ ?_) rating
    cases caller with
    | none =>
      have hnew : Places.rateName none place ∉ place.ratings.keys := by
        rw [Finmap.mem_keys]
        exact h.rateName_notMem
      rw [Finset.card_insert_of_notMem hnew]
      exact le_of_eq (decimal_injective hname).symm
    | some uid => exact absurd hname ((hcaller uid rfl).2 number)

theorem Numbered.foldl_perform (h : place.Numbered) {calls : List (Option String × Call)}
    (hcalls : ∀ uid call, (some uid, call) ∈ calls → NotMadeUp uid) :
    (calls.foldl Places.perform place).Numbered := by
  induction calls generalizing place with
  | nil => exact h
  | cons first rest ih =>
    obtain ⟨caller, call⟩ := first
    refine ih (h.perform (fun uid hcaller ↦ hcalls uid call ?_) call)
      fun uid call hmem ↦ hcalls uid call (List.mem_cons_of_mem _ hmem)
    rw [hcaller]
    exact List.mem_cons_self

/-- Made-up names never collide. Assumes: a place without visitors and ratings, and uids that are
not made up. After any calls no visitor is listed twice, a visit by a caller who is not signed in is
accepted and appends one name, and a rating by such a caller adds one entry and leaves the entries
that there are. -/
theorem madeUp_of_calls {start : Place} (hvisitors : start.visitors = [])
    (hratings : start.ratings = ∅) {calls : List (Option String × Call)}
    (hcalls : ∀ uid call, (some uid, call) ∈ calls → NotMadeUp uid) :
    (calls.foldl Places.perform start).visitors.Nodup ∧
      (∃ name, Places.visit none (calls.foldl Places.perform start) =
        (true, { calls.foldl Places.perform start with
          visitors := (calls.foldl Places.perform start).visitors ++ [name] })) ∧
      ∀ rating, ∃ name, name ∉ (calls.foldl Places.perform start).ratings ∧
        (Places.rate none (calls.foldl Places.perform start) rating).ratings =
          (calls.foldl Places.perform start).ratings.insert name rating ∧
        ∀ other value, (calls.foldl Places.perform start).ratings.lookup other = some value →
          (Places.rate none (calls.foldl Places.perform start) rating).ratings.lookup other =
            some value := by
  have hstart : start.Numbered :=
    ⟨by rw [hvisitors]; exact List.nodup_nil, by simp [hvisitors],
      fun number hmem ↦ absurd (hratings ▸ hmem) Finmap.notMem_empty⟩
  have hplace := hstart.foldl_perform hcalls
  generalize calls.foldl Places.perform start = place at hplace ⊢
  refine ⟨hplace.nodup, ⟨_, Places.visit_of_notMem hplace.visitName_notMem⟩, fun rating ↦
    ⟨_, hplace.rateName_notMem, rfl, fun other value hvalue ↦ ?_⟩⟩
  have hother : other ≠ Places.rateName none place := by
    rintro rfl
    exact hplace.rateName_notMem (Finmap.mem_of_lookup_eq_some hvalue)
  rw [Places.rate, ratings_rate, Finmap.lookup_insert_of_ne _ hother]
  exact hvalue

/-- A uid with a character that is not a digit, and that does not begin as the made-up visitors
do. -/
theorem notMadeUp_ana : NotMadeUp "ana" := by
  constructor
  · intro number h
    have hchars := congrArg String.toList h
    simp [anonymousName] at hchars
  · intro number h
    have hchars := congrArg String.toList h
    rw [decimal, show toString number = number.repr from rfl, Nat.toList_repr] at hchars
    have hmem : 'a' ∈ Nat.toDigits 10 number := hchars ▸ List.mem_cons_self
    exact absurd (Nat.isDigit_of_mem_toDigits (by decide) le_rfl hmem) (by decide)

/-- Two callers who are not signed in, and one who is, in turns. -/
theorem madeUp_of_calls_sample :
    ∃ name, Places.visit none
        ([(none, .visit), (some "ana", .visit), (none, .rate 3)].foldl Places.perform samplePlace) =
      (true, { [(none, .visit), (some "ana", .visit), (none, .rate 3)].foldl Places.perform
          samplePlace with
        visitors := ["Anonymous1", "ana"] ++ [name] }) := by
  have hcalls : ∀ uid call, (some uid, call) ∈
      [((none : Option String), Call.visit), (some "ana", .visit), (none, .rate 3)] →
        NotMadeUp uid := by
    intro uid call hmem
    simp only [List.mem_cons, Prod.mk.injEq, Option.some.injEq, reduceCtorEq, false_and,
      List.not_mem_nil, or_false, false_or] at hmem
    rw [hmem.1]
    exact notMadeUp_ana
  exact (madeUp_of_calls rfl rfl hcalls).2.1

end Place

end BeenHere
