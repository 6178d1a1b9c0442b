import LustreTools.Osc.GrantRuns

/-!
Where the grants of a client are: free, reserved, lost, in extents, or on their way back to the
server. The sum is what the server gave and has not been told back, with three exceptions: two
subtractions that wrap where the code does not look, and the tax of an extent that is merged away,
which its writer gets back although the merged extent keeps it.
-/
namespace Grant
open Runs Words
variable {k : Config} {c d : Client}

/-- What a call owes to the counters: an extent has already taken its part of a reservation that
    still stands, and the tax it saved is on top; a shrink carries grants that are nowhere else. -/
def Call.due : Call → Int
  | .settled grants unused => unused - grants
  | .returning grant => grant
  | _ => 0

def Client.dues (c : Client) : Int := (c.calls.map Call.due).sum

def Client.total (c : Client) : Int :=
  c.clAvailGrant + c.clReservedGrant + c.clLostGrant + c.extGrants + c.dues

def Balanced (c : Client) : Prop := c.total = c.given

instance (c : Client) : Decidable (Balanced c) := inferInstanceAs (Decidable (_ = _))

structure Positive (c : Client) : Prop where
  lost : 0 ≤ c.clLostGrant
  extents : 0 ≤ c.extGrants
  returns : ∀ grant, Call.returning grant ∈ c.calls → 0 ≤ grant

structure Moves (c d : Client) : Prop where
  lost : d.clLostGrant = c.clLostGrant
  extents : d.extGrants = c.extGrants
  given : d.given = c.given
  total : d.total = c.total
  returns : ∀ grant, Call.returning grant ∈ d.calls → Call.returning grant ∈ c.calls

theorem Moves.refl (c : Client) : Moves c c := ⟨rfl, rfl, rfl, rfl, fun _ member => member⟩

theorem Moves.trans {e : Client} (first : Moves c d) (second : Moves d e) : Moves c e :=
  ⟨second.lost.trans first.lost, second.extents.trans first.extents, second.given.trans first.given,
    second.total.trans first.total, fun grant member => first.returns grant (second.returns grant member)⟩

theorem push_dues (c : Client) (call : Call) : (c.push call).dues = call.due + c.dues := by
  simp only [Client.dues, Client.push, List.map_cons, List.sum_cons]

theorem push_total (c : Client) (call : Call) : (c.push call).total = c.total + call.due := by
  simp only [Client.total, push_dues]
  simp only [Client.push]
  ring

theorem Moves.push (moves : Moves c d) {call : Call} (due : call.due = 0)
    (other : ∀ grant, call ≠ .returning grant) :
    Moves c (d.push call) where
  lost := moves.lost
  extents := moves.extents
  given := moves.given
  total := by rw [push_total, due, add_zero, moves.total]
  returns := by
    intro grant member
    rcases List.mem_cons.mp member with equal | rest
    · exact absurd equal.symm (other grant)
    · exact moves.returns grant rest

theorem consume_moves (c : Client) (bytes : Int) :
    Moves c (oscConsumeWriteGrant
      { c with clAvailGrant := c.clAvailGrant - bytes, clReservedGrant := c.clReservedGrant + bytes }) where
  lost := rfl
  extents := rfl
  given := rfl
  total := by
    simp only [Client.total, Client.dues, oscConsumeWriteGrant]
    ring
  returns := fun _ member => member

theorem wake_moves (range : InU64 c.clAvailGrant) (bytes : Int) : Moves c (wake k c bytes) := by
  have refused : Moves c (c.push (.woken bytes edquot)) := (Moves.refl c).push rfl fun _ => Call.noConfusion
  unfold wake
  split_ifs
  · exact refused
  · rcases try_cases range bytes with failed | ⟨-, -, -, went⟩
    · rw [failed]
      exact refused
    · rw [went]
      exact (consume_moves c bytes).push rfl fun _ => Call.noConfusion

theorem foldl_wake_moves (waiters : List Int) (equal : ∀ bytes ∈ waiters, bytes = k.need)
    (sound : Sound k c) :
    Moves c (waiters.foldl (wake k) c) := by
  induction waiters generalizing c with
  | nil => exact Moves.refl c
  | cons bytes waiters ih =>
    obtain ⟨rfl, rest⟩ := List.forall_mem_cons.mp equal
    exact (wake_moves sound.avail k.need).trans (ih rest (wake_books sound).sound)

theorem wake_all_moves (sound : Sound k c) : Moves c (oscWakeCacheWaiters k c) := by
  have woken := foldl_wake_moves c.clCacheWaiters sound.waiters sound.emptied
  exact ⟨woken.lost, woken.extents, woken.given, woken.total, woken.returns⟩

theorem again_moves (range : InU64 c.clAvailGrant) (bytes : Int) : Moves c (enterCacheAgain k c bytes) := by
  unfold enterCacheAgain
  rcases try_cases range bytes with failed | ⟨-, -, -, went⟩
  · rw [failed]
    dsimp only [enterCacheLoop]
    split
    · exact ⟨rfl, rfl, rfl, rfl, fun _ member => member⟩
    · exact Moves.refl c
  · rw [went]
    exact (consume_moves c bytes).push rfl fun _ => Call.noConfusion

theorem Positive.moves (positive : Positive c) (moves : Moves c d) : Positive d where
  lost := by rw [moves.lost]; exact positive.lost
  extents := by rw [moves.extents]; exact positive.extents
  returns := fun grant member => positive.returns grant (moves.returns grant member)

theorem Positive.push (positive : Positive c) {call : Call}
    (back : ∀ grant, call = .returning grant → 0 ≤ grant) :
    Positive (c.push call) where
  lost := positive.lost
  extents := positive.extents
  returns := by
    intro grant member
    rcases List.mem_cons.mp member with equal | rest
    · exact back grant equal.symm
    · exact positive.returns grant rest

theorem Positive.pop (positive : Positive c) (i : Nat) : Positive { c with calls := c.calls.eraseIdx i } :=
  ⟨positive.lost, positive.extents, fun grant member => positive.returns grant
    (List.mem_of_mem_eraseIdx member)⟩

theorem u64_nonneg (x : Int) : 0 ≤ u64 x := (u64_in x).1

theorem unreserve_positive (positive : Positive c) (reserved unused : Int) :
    Positive (unreserveGrant c reserved unused) := by
  unfold unreserveGrant
  dsimp only
  split
  · exact ⟨u64_nonneg _, positive.extents, positive.returns⟩
  · exact ⟨positive.lost, positive.extents, positive.returns⟩

theorem osc_unreserve_positive (sound : Sound k c) (positive : Positive c) (reserved unused : Int) :
    Positive (oscUnreserveGrant k c reserved unused) := by
  have before := unreserve_positive positive reserved unused
  unfold oscUnreserveGrant
  split
  · exact before.moves (wake_all_moves (unreserve_books sound reserved unused).sound)
  · exact before

theorem settle_positive (positive : Positive c) (grants : Int) {taken : Int}
    (nonneg : 0 ≤ taken) (saved : Int) :
    Positive (settle c grants taken saved) := by
  have extents := positive.extents
  have taken : Positive { c with extGrants := c.extGrants + taken } :=
    ⟨positive.lost, by change 0 ≤ c.extGrants + taken; omega, positive.returns⟩
  exact taken.push fun _ => Call.noConfusion

theorem proceed_positive (sound : Sound k c) (positive : Positive c) {call : Call}
    (back : ∀ grant, call = .returning grant → 0 ≤ grant) (answer : Answer) :
    Positive (proceed k c call answer) := by
  have stay : Positive (c.push call) := positive.push back
  have chunk : 0 ≤ k.chunk := by unfold Config.chunk; positivity
  have need := need_pos k
  cases call with
  | woken bytes rc =>
    have next : Positive (if rc ≠ edquot then c.push (.entered bytes) else enterCacheAgain k c bytes) := by
      split_ifs
      · exact positive.push fun _ => Call.noConfusion
      · exact positive.moves (again_moves sound.avail bytes)
    cases answer with
    | interrupted => exact positive
    | _ => exact next
  | entered grants =>
    cases answer with
    | failed =>
      have released : Positive (oscReleaseWriteGrant c) := ⟨positive.lost, positive.extents, positive.returns⟩
      exact released.push fun _ => Call.noConfusion
    | held => exact settle_positive positive grants (le_refl 0) 0
    | grown gap => exact settle_positive positive grants chunk _
    | created => exact settle_positive positive grants need.le 0
    | _ => exact stay
  | expanding grants =>
    cases answer with
    | failed => exact positive.push fun _ => Call.noConfusion
    | held => exact settle_positive positive grants (le_refl 0) 0
    | grown gap => exact settle_positive positive grants chunk 0
    | moved => exact positive.push fun _ => Call.noConfusion
    | _ => exact stay
  | exited grants => cases answer <;> exact osc_unreserve_positive sound positive grants grants
  | settled grants unused =>
    have next : Positive ((oscUnreserveGrant k c grants unused).push .paid) :=
      (osc_unreserve_positive sound positive grants unused).push fun _ => Call.noConfusion
    cases answer <;> exact next
  | paid => cases answer <;> exact ⟨positive.lost, positive.extents, positive.returns⟩
  | shrinking target =>
    have announced : Positive (oscAnnounceCached k c).1 := ⟨le_refl 0, positive.extents, positive.returns⟩
    have next : Positive ((oscAnnounceCached k c).1.push (.announced target)) :=
      announced.push fun _ => Call.noConfusion
    cases answer with
    | failed => exact positive
    | _ => exact next
  | announced target =>
    have shrunk : Positive { c with clAvailGrant := target } :=
      ⟨positive.lost, positive.extents, positive.returns⟩
    have next : Positive (shrinkGrant c target) := by
      apply shrunk.push
      intro grant equal
      rw [← Call.returning.inj equal]
      exact u64_nonneg _
    cases answer <;> exact next
  | returning grant =>
    cases answer with
    | failed => exact ⟨positive.lost, positive.extents, positive.returns⟩
    | reply more => exact ⟨positive.lost, positive.extents, positive.returns⟩
    | _ => exact stay

theorem free_positive (positive : Positive c) (nrPages lostGrant : Int) :
    Positive (freeGrant k c nrPages lostGrant) := by
  unfold freeGrant
  dsimp only
  split
  · rename_i borrow
    refine ⟨?_, positive.extents, positive.returns⟩
    change 0 ≤ u64 (c.clLostGrant + lostGrant) - k.need
    have enough : k.need ≤ u64 (c.clLostGrant + lostGrant) := borrow.2
    omega
  · exact ⟨u64_nonneg _, positive.extents, positive.returns⟩

theorem step_positive (sound : Sound k c) (positive : Positive c) (e : Event) : Positive (step k c e) := by
  have same (d : Client) (lost : d.clLostGrant = c.clLostGrant) (extents : d.extGrants = c.extGrants)
      (calls : d.calls = c.calls) : Positive d :=
    ⟨by rw [lost]; exact positive.lost, by rw [extents]; exact positive.extents,
      by rw [calls]; exact positive.returns⟩
  cases e with
  | tryEnter beyond =>
    dsimp only [step]
    rcases try_cases sound.avail (if beyond = true then k.need else 0) with failed | ⟨-, -, -, went⟩
    · rw [failed]
      exact positive
    · rw [went]
      apply (positive.moves (consume_moves c _)).push
      cases beyond <;> exact fun _ => Call.noConfusion
  | enter forceSync =>
    dsimp only [step, oscEnterCache]
    split
    · exact positive
    · exact positive.moves (again_moves sound.avail _)
  | proceed i answer =>
    dsimp only [step]
    cases there : c.calls[i]? with
    | none => exact positive
    | some call =>
      obtain ⟨ok, popped⟩ := pop_books sound there
      apply proceed_positive popped.sound (positive.pop i)
      rintro grant rfl
      exact positive.returns grant (List.mem_of_getElem? there)
  | free nrPages grants dropped =>
    dsimp only [step]
    split_ifs with fits
    · obtain ⟨pages, extents, -⟩ := fits
      apply Positive.moves _ (wake_all_moves (free_books sound pages grants dropped).sound)
      apply free_positive
      exact ⟨positive.lost, by change 0 ≤ c.extGrants - (grants : Int); omega, positive.returns⟩
    · exact positive
  | writeDone =>
    dsimp only [step]
    split
    · have framed : Sound k { c with clWInFlight := c.clWInFlight - 1 } :=
        sound.frame rfl rfl rfl sound.avail sound.limit sound.waiters
      exact (same { c with clWInFlight := c.clWInFlight - 1 } rfl rfl rfl).moves (wake_all_moves framed)
    · exact positive
  | readDone => exact positive.moves (wake_all_moves sound)
  | announce => exact ⟨le_refl 0, positive.extents, positive.returns⟩
  | shrink target =>
    dsimp only [step, oscShrinkGrantToTarget]
    split_ifs
    · exact positive
    · exact positive.push fun _ => Call.noConfusion
  | setDirtyMax pagesNumber =>
    dsimp only [step, oscMaxDirtyMbSeqWrite]
    split
    · exact positive
    · rename_i good
      have framed : Sound k { c with clDirtyMaxPages := pagesNumber } :=
        sound.frame rfl rfl rfl sound.avail (limit_in good) sound.waiters
      exact (same { c with clDirtyMaxPages := pagesNumber } rfl rfl rfl).moves (wake_all_moves framed)
  | discon => exact ⟨le_refl 0, positive.extents, positive.returns⟩
  | reconnect => exact ⟨le_refl 0, positive.extents, positive.returns⟩
  | _ => exact same _ rfl rfl rfl

theorem held_due_nonneg {call : Call} (ok : call.Ok k) (back : ∀ grant, call = .returning grant → 0 ≤ grant) :
    0 ≤ call.held + call.due := by
  have positive := need_pos k
  cases call with
  | woken bytes rc =>
    obtain ⟨rfl, -⟩ := ok
    simp only [Call.held, Call.due]
    split <;> omega
  | entered grants =>
    obtain rfl : grants = k.need := ok
    simp only [Call.held, Call.due]
    omega
  | expanding grants =>
    obtain rfl : grants = k.need := ok
    simp only [Call.held, Call.due]
    omega
  | exited grants =>
    obtain rfl : grants = k.need := ok
    simp only [Call.held, Call.due]
    omega
  | settled grants unused =>
    obtain ⟨rfl, low⟩ := ok
    simp only [Call.held, Call.due]
    omega
  | returning grant =>
    have low := back grant rfl
    simpa [Call.held, Call.due] using low
  | _ => simp [Call.held, Call.due]

theorem dues_covered (sound : Sound k c) (positive : Positive c) : 0 ≤ c.grantsHeld + c.dues := by
  have joined : c.grantsHeld + c.dues = (c.calls.map fun call => call.held + call.due).sum := by
    rw [List.sum_map_add]
    rfl
  rw [joined]
  apply List.sum_nonneg
  intro value member
  obtain ⟨call, listed, rfl⟩ := List.mem_map.mp member
  apply held_due_nonneg (sound.calls call listed)
  rintro grant rfl
  exact positive.returns grant listed

structure Owed (k : Config) (d : Client) (call : Call) : Prop where
  sound : Sound k d
  positive : Positive d
  covered : d.grantsHeld + call.held ≤ d.clReservedGrant
  total : d.total + call.due = d.given

theorem Owed.even {call : Call} (owed : Owed k d call) (due : call.due = 0) : d.total = d.given := by
  have total := owed.total
  rwa [due, add_zero] at total

theorem Owed.spread {call : Call} (owed : Owed k d call) :
    0 ≤ d.clAvailGrant ∧ 0 ≤ d.clLostGrant ∧ 0 ≤ d.extGrants ∧
      0 ≤ d.clReservedGrant - call.held + d.dues := by
  have covered := owed.covered
  have dues := dues_covered owed.sound owed.positive
  exact ⟨owed.sound.avail.1, owed.positive.lost, owed.positive.extents, by omega⟩

theorem unreserve_total {call : Call} (owed : Owed k d call) {unused : Int} (low : 0 ≤ call.held)
    (nonneg : 0 ≤ unused)
    (due : call.due = unused - call.held) (fits : d.given < 18446744073709551616) :
    (unreserveGrant d call.held unused).total = d.given ∧
    (unreserveGrant d call.held unused).given = d.given := by
  obtain ⟨avail, lost, extents, rest⟩ := owed.spread
  have total := owed.total
  simp only [Client.total, due] at total
  unfold unreserveGrant
  dsimp only
  split
  · have first : u64 (d.clAvailGrant + call.held) = d.clAvailGrant + call.held := by
      apply u64_of_in
      simp only [InU64]
      omega
    have second : u64 (d.clLostGrant + (unused - call.held)) = d.clLostGrant + (unused - call.held) := by
      apply u64_of_in
      simp only [InU64]
      omega
    refine ⟨?_, rfl⟩
    simp only [Client.total, Client.dues, first, second] at total ⊢
    omega
  · have back : u64 (d.clAvailGrant + unused) = d.clAvailGrant + unused := by
      apply u64_of_in
      simp only [InU64]
      omega
    refine ⟨?_, rfl⟩
    simp only [Client.total, Client.dues, back] at total ⊢
    omega

theorem osc_unreserve_total {call : Call} (owed : Owed k d call) {unused : Int} (low : 0 ≤ call.held)
    (nonneg : 0 ≤ unused) (due : call.due = unused - call.held) (fits : d.given < 18446744073709551616) :
    (oscUnreserveGrant k d call.held unused).total = d.given ∧
    (oscUnreserveGrant k d call.held unused).given = d.given := by
  obtain ⟨total, given⟩ := unreserve_total owed low nonneg due fits
  unfold oscUnreserveGrant
  split
  · have moves := wake_all_moves (unreserve_books owed.sound call.held unused).sound
    exact ⟨moves.total.trans total, moves.given.trans given⟩
  · exact ⟨total, given⟩

theorem osc_unreserve_given (sound : Sound k d) (reserved unused : Int) :
    (oscUnreserveGrant k d reserved unused).given = d.given := by
  have kept : (unreserveGrant d reserved unused).given = d.given := by
    unfold unreserveGrant
    dsimp only
    split <;> rfl
  unfold oscUnreserveGrant
  split
  · exact (wake_all_moves (unreserve_books sound reserved unused).sound).given.trans kept
  · exact kept

theorem settle_balanced {grants : Int} (total : d.total = d.given) (taken saved : Int) :
    Balanced (settle d grants taken saved) ↔ saved = 0 := by
  unfold Balanced settle
  rw [push_total]
  simp only [Client.total, Client.dues, Call.due, Client.push] at total ⊢
  omega

/-- The target that a shrink settled for is still below what there is, and an extent that fills a
    gap saves no tax. -/
def Call.Measured (k : Config) (c : Client) : Call → Answer → Prop
  | .announced target, _ => target ≤ c.clAvailGrant
  | .entered _, .grown true => k.clExtentTax = 0
  | _, _ => True

theorem shrink_balanced {target : Int} (range : InU64 d.clAvailGrant) (low : InU64 target)
    (total : d.total = d.given) :
    Balanced (shrinkGrant d target) ↔ target ≤ d.clAvailGrant := by
  simp only [Balanced, shrinkGrant, push_total, Call.due]
  simp only [Client.total, Client.dues, Client.push, u64, InU64] at *
  omega

theorem update_balanced {grant : Int} (range : 0 ≤ d.clAvailGrant) (nonneg : 0 ≤ grant)
    (high : d.clAvailGrant + grant < 18446744073709551616) (total : d.total + grant = d.given) :
    Balanced (oscUpdateGrant d grant) := by
  have fits : u64 (d.clAvailGrant + grant) = d.clAvailGrant + grant := u64_of_in ⟨by omega, high⟩
  simp only [Balanced, oscUpdateGrant, Client.total, Client.dues, fits] at total ⊢
  omega

theorem proceed_balanced {call : Call} (owed : Owed k d call) (ok : call.Ok k)
    (back : ∀ grant, call = .returning grant → 0 ≤ grant) (answer : Answer)
    (fits : (proceed k d call answer).given < 18446744073709551616) :
    Balanced (proceed k d call answer) ↔ call.Measured k d answer := by
  have total := owed.total
  obtain ⟨avail, lost, extents, rest⟩ := owed.spread
  have stay : Balanced (d.push call) := by
    unfold Balanced
    rw [push_total, total]
    rfl
  have positive := need_pos k
  cases call with
  | woken bytes rc =>
    have even := owed.even rfl
    refine iff_of_true ?_ trivial
    have next : Balanced (if rc ≠ edquot then d.push (.entered bytes) else enterCacheAgain k d bytes) := by
      split_ifs
      · exact (push_total d (.entered bytes)).trans ((add_zero _).trans even)
      · have moves := again_moves (k := k) owed.sound.avail bytes
        exact moves.total.trans (even.trans moves.given.symm)
    cases answer with
    | interrupted => exact even
    | _ => exact next
  | entered grants =>
    have even := owed.even rfl
    have settled (taken : Int) : Balanced (settle d grants taken 0) := (settle_balanced even taken 0).mpr rfl
    cases answer with
    | failed => exact iff_of_true ((push_total _ _).trans ((add_zero _).trans even)) trivial
    | held => exact iff_of_true (settled 0) trivial
    | grown gap =>
      cases gap with
      | true => exact (settle_balanced even k.chunk k.clExtentTax).trans Nat.cast_eq_zero
      | false => exact iff_of_true (settled k.chunk) trivial
    | created => exact iff_of_true (settled k.need) trivial
    | _ => exact iff_of_true stay trivial
  | expanding grants =>
    refine iff_of_true ?_ trivial
    have even := owed.even rfl
    have settled (taken : Int) : Balanced (settle d grants taken 0) := (settle_balanced even taken 0).mpr rfl
    cases answer with
    | failed => exact (push_total _ _).trans ((add_zero _).trans even)
    | held => exact settled 0
    | grown gap => exact settled k.chunk
    | moved => exact (push_total _ _).trans ((add_zero _).trans even)
    | _ => exact stay
  | exited grants =>
    refine iff_of_true ?_ trivial
    obtain rfl : grants = k.need := ok
    have kept := osc_unreserve_given owed.sound k.need k.need
    have high : d.given < 18446744073709551616 := by
      cases answer <;> exact kept ▸ fits
    have done := osc_unreserve_total owed positive.le positive.le (sub_self _).symm high
    have balanced : Balanced (oscUnreserveGrant k d k.need k.need) := done.1.trans done.2.symm
    cases answer <;> exact balanced
  | settled grants unused =>
    refine iff_of_true ?_ trivial
    obtain ⟨rfl, low⟩ := ok
    have kept := osc_unreserve_given owed.sound k.need unused
    have high : d.given < 18446744073709551616 := by
      cases answer <;> exact kept ▸ fits
    have done := osc_unreserve_total owed positive.le low rfl high
    have balanced : Balanced ((oscUnreserveGrant k d k.need unused).push .paid) :=
      (push_total _ _).trans ((add_zero _).trans (done.1.trans done.2.symm))
    cases answer <;> exact balanced
  | paid =>
    refine iff_of_true ?_ trivial
    have even := owed.even rfl
    cases answer <;> exact even
  | shrinking target =>
    refine iff_of_true ?_ trivial
    have even := owed.even rfl
    have next : Balanced ((oscAnnounceCached k d).1.push (.announced target)) := by
      have announced : Balanced (oscAnnounceCached k d).1 := by
        simp only [Balanced, oscAnnounceCached, Client.total, Client.dues] at even ⊢
        omega
      exact (push_total _ _).trans ((add_zero _).trans announced)
    cases answer with
    | failed => exact even
    | _ => exact next
  | announced target =>
    have even := owed.even rfl
    have exactly := shrink_balanced owed.sound.avail ok even
    cases answer <;> exact exactly
  | returning grant =>
    refine iff_of_true ?_ trivial
    have low := back grant rfl
    simp only [Call.due, Call.held, Client.total] at total rest
    cases answer with
    | failed =>
      have high : d.given < 18446744073709551616 := fits
      exact update_balanced avail low (by omega) total
    | reply more =>
      have high : d.given - grant + more < 18446744073709551616 := fits
      have replied : Balanced (oscUpdateGrant { d with given := d.given - grant + more } more) := by
        refine update_balanced avail (Int.natCast_nonneg more) ?_ ?_
        · change d.clAvailGrant + more < _
          omega
        · simp only [Client.total, Client.dues] at total ⊢
          omega
      exact replied
    | _ => exact stay

structure Fair (k : Config) (c : Client) : Prop where
  sound : Sound k c
  positive : Positive c
  reserved : c.grantsHeld ≤ c.clReservedGrant

theorem lost_nonneg (sound : Sound k c) (e : Event) : 0 ≤ (lost c e).sum := by
  cases e with
  | proceed i answer =>
    dsimp only [lost]
    cases there : c.calls[i]? with
    | none => exact le_refl 0
    | some call =>
      have ok := (pop_books sound there).1
      have positive := need_pos k
      cases call with
      | woken bytes rc =>
        obtain ⟨rfl, -⟩ := ok
        cases answer with
        | interrupted =>
          dsimp only [abandoned]
          split_ifs
          · simpa using positive.le
          · exact le_refl 0
        | _ => exact le_refl 0
      | _ => exact le_refl 0
  | _ => exact le_refl 0

theorem forgotten_nonneg (sound : Sound k c) (e : Event) : 0 ≤ (forgotten c e).sum := by
  cases e with
  | proceed i answer =>
    dsimp only [forgotten]
    cases there : c.calls[i]? with
    | none => exact le_refl 0
    | some call =>
      have ok := (pop_books sound there).1
      have positive := need_pos k
      cases call with
      | expanding grants =>
        obtain rfl : grants = k.need := ok
        cases answer with
        | moved => simpa [overlooked] using positive.le
        | _ => exact le_refl 0
      | _ => exact le_refl 0
  | _ => exact le_refl 0

theorem step_fair (fair : Fair k c) (e : Event) : Fair k (step k c e) where
  sound := (step_books fair.sound e).sound
  positive := step_positive fair.sound fair.positive e
  reserved := by
    have moved := (step_books fair.sound e).grants
    have sleepers := lost_nonneg fair.sound e
    have extents := forgotten_nonneg fair.sound e
    have reserved := fair.reserved
    omega

theorem pop_owed (fair : Fair k c) (balanced : Balanced c) {i : Nat} {call : Call}
    (there : c.calls[i]? = some call) :
    Owed k { c with calls := c.calls.eraseIdx i } call := by
  obtain ⟨ok, popped⟩ := pop_books fair.sound there
  obtain ⟨low, rfl⟩ := List.getElem?_eq_some_iff.mp there
  have perm : c.calls.Perm (c.calls[i] :: c.calls.eraseIdx i) := (List.getElem_cons_eraseIdx_perm low).symm
  have dues := (perm.map Call.due).sum_eq
  rw [List.map_cons, List.sum_cons] at dues
  have grants := popped.grants
  have reserved := fair.reserved
  refine ⟨popped.sound, fair.positive.pop i, ?_, ?_⟩
  · change c.clReservedGrant - _ = _ at grants
    change _ ≤ c.clReservedGrant
    omega
  · simp only [Balanced, Client.total, Client.dues] at balanced ⊢
    omega

/-- A step whose subtraction does not wrap and that counts no tax twice. -/
def Measured (k : Config) (c : Client) : Event → Prop
  | .proceed i answer => match c.calls[i]? with
    | none => True
    | some call => call.Measured k c answer
  | .connect evicted ocdGrant => evicted = true ∨ c.clDirtyPages * pageCacheSize ≤ u32 ocdGrant
  | _ => True

theorem connect_balanced (dirty : 0 ≤ c.clDirtyPages) (balanced : Balanced c) (evicted : Bool)
    (ocdGrant : Nat) :
    Balanced (oscInitGrant c evicted (u32 ocdGrant)) ↔
      evicted = true ∨ c.clDirtyPages * pageCacheSize ≤ u32 ocdGrant := by
  have word := u32_in ocdGrant
  cases evicted with
  | true =>
    refine iff_of_true ?_ (Or.inl rfl)
    simp only [Balanced, oscInitGrant, ↓reduceIte, Client.total, Client.dues] at balanced ⊢
    omega
  | false =>
    simp only [Balanced, oscInitGrant, Bool.false_eq_true, ↓reduceIte, Client.total, Client.dues,
      false_or, pageCacheSize,
      InU32, u64] at *
    omega

theorem free_balanced (fair : Fair k c) (balanced : Balanced c) {nrPages grants dropped : Nat}
    (there : grants ≤ c.extGrants) (fits : c.given - (grants - dropped) < 18446744073709551616) :
    Balanced
      (freeGrant k
        { c with
          pages := c.pages - nrPages
          extGrants := c.extGrants - grants
          given := c.given - (grants - dropped) } nrPages dropped) := by
  have covered := dues_covered fair.sound fair.positive
  have reserved := fair.reserved
  have avail := fair.sound.avail.1
  have lost := fair.positive.lost
  have need := need_pos k
  simp only [Balanced, Client.total, Client.dues] at balanced covered
  have counted : u64 (c.clLostGrant + dropped) = c.clLostGrant + dropped := by
    apply u64_of_in
    simp only [InU64]
    omega
  unfold freeGrant
  simp only [counted]
  split_ifs with borrow
  · have enough : k.need ≤ c.clLostGrant + dropped := borrow.2
    have borrowed : u64 (c.clAvailGrant + k.need) = c.clAvailGrant + k.need := by
      apply u64_of_in
      simp only [InU64]
      omega
    simp only [Balanced, Client.total, Client.dues, borrowed]
    omega
  · simp only [Balanced, Client.total, Client.dues]
    omega

theorem step_balanced (fair : Fair k c) (balanced : Balanced c) (e : Event)
    (fits : (step k c e).given < 18446744073709551616) : Balanced (step k c e) ↔ Measured k c e := by
  have sound := fair.sound
  have covered := dues_covered fair.sound fair.positive
  have reserved := fair.reserved
  have avail := sound.avail.1
  have lost := fair.positive.lost
  have extents := fair.positive.extents
  have moved {d : Client} (moves : Moves c d) : Balanced d :=
    moves.total.trans (balanced.trans moves.given.symm)
  have woken {d : Client} (same : Balanced d) (sound : Sound k d) : Balanced (oscWakeCacheWaiters k d) :=
    (wake_all_moves sound).total.trans (same.trans (wake_all_moves sound).given.symm)
  cases e with
  | tryEnter beyond =>
    refine iff_of_true ?_ trivial
    dsimp only [step]
    rcases try_cases sound.avail (if beyond = true then k.need else 0) with failed | ⟨-, -, -, went⟩
    · rw [failed]
      exact balanced
    · rw [went]
      have due : (if beyond = true then Call.expanding k.need else .paid).due = 0 := by
        cases beyond <;> rfl
      refine (push_total _ _).trans ?_
      rw [due, add_zero]
      exact moved (consume_moves c _)
  | enter forceSync =>
    refine iff_of_true ?_ trivial
    dsimp only [step, oscEnterCache]
    split
    · exact balanced
    · exact moved (again_moves sound.avail _)
  | proceed i answer =>
    dsimp only [step, Measured] at fits ⊢
    cases there : c.calls[i]? with
    | none => exact iff_of_true balanced trivial
    | some call =>
      rw [there] at fits
      obtain ⟨ok, -⟩ := pop_books sound there
      have owed := pop_owed fair balanced there
      have back : ∀ grant, call = .returning grant → 0 ≤ grant := by
        rintro grant rfl
        exact fair.positive.returns grant (List.mem_of_getElem? there)
      have exactly := proceed_balanced owed ok back answer fits
      cases call <;> exact exactly
  | free nrPages grants dropped =>
    refine iff_of_true ?_ trivial
    dsimp only [step] at fits ⊢
    split_ifs at fits ⊢ with room
    · obtain ⟨pages, extents, -⟩ := room
      have freed := (free_books sound pages grants dropped).sound
      rw [oscFreeGrant, (wake_all_moves freed).given] at fits
      refine woken (free_balanced fair balanced extents ?_) freed
      unfold freeGrant at fits
      dsimp only at fits
      split at fits <;> exact fits
    · exact balanced
  | writeDone =>
    refine iff_of_true ?_ trivial
    dsimp only [step]
    split
    · have framed : Sound k { c with clWInFlight := c.clWInFlight - 1 } :=
        sound.frame rfl rfl rfl sound.avail sound.limit sound.waiters
      exact woken balanced framed
    · exact balanced
  | readDone => exact iff_of_true (woken balanced sound) trivial
  | update grant =>
    refine iff_of_true ?_ trivial
    have high : c.given + grant < 18446744073709551616 := fits
    simp only [Balanced, Client.total] at balanced
    have given : { c with given := c.given + grant : Client }.total = c.total := rfl
    refine update_balanced avail (Int.natCast_nonneg grant) ?_ ?_
    · change c.clAvailGrant + grant < _
      omega
    · rw [given, Client.total, balanced]
  | announce =>
    refine iff_of_true ?_ trivial
    simp only [Balanced, step, oscAnnounceCached, Client.total, Client.dues] at balanced ⊢
    omega
  | shrinkLocal =>
    refine iff_of_true ?_ trivial
    simp only [Balanced, step, oscShrinkGrantLocal, Client.total, Client.dues] at balanced ⊢
    omega
  | shrink target =>
    refine iff_of_true ?_ trivial
    dsimp only [step, oscShrinkGrantToTarget]
    split_ifs
    · exact balanced
    · exact (push_total _ _).trans ((add_zero _).trans balanced)
  | setDirtyMax pagesNumber =>
    refine iff_of_true ?_ trivial
    dsimp only [step, oscMaxDirtyMbSeqWrite]
    split
    · exact balanced
    · rename_i good
      have framed : Sound k { c with clDirtyMaxPages := pagesNumber } :=
        sound.frame rfl rfl rfl sound.avail (limit_in good) sound.waiters
      exact woken balanced framed
  | discon =>
    refine iff_of_true ?_ trivial
    simp only [Balanced, step, Client.total, Client.dues] at balanced ⊢
    omega
  | connect evicted ocdGrant => exact connect_balanced sound.dirty_nonneg balanced evicted ocdGrant
  | reconnect =>
    refine iff_of_true ?_ trivial
    simp only [Balanced, step, Client.total, Client.dues] at balanced ⊢
    omega
  | _ => exact iff_of_true balanced trivial

def WordSized (c : Client) : Prop := c.given < 18446744073709551616

instance (c : Client) : Decidable (WordSized c) := inferInstanceAs (Decidable (_ < _))

def overtaken : List Event :=
  [.connect true 12288, .shrink 4096, .proceed 0 .go, .enter false, .enter false,
    .enter false, .proceed 3 .go]

/-- The client then gives back more than any server gave, and still has a page's worth. -/
example :
    let c := run (step small) (started 9 8 1) overtaken
    c.clAvailGrant = 4096 ∧ c.clReservedGrant = 12288 ∧ c.calls.head? =
      some (.returning 18446744073709547520) := by
  decide +kernel

def joined : List Event :=
  [.connect true 100000, .enter false, .proceed 0 .created, .proceed 0 .go, .proceed 0 .go,
    .enter false, .proceed 0 .created, .proceed 0 .go, .proceed 0 .go,
    .enter false, .proceed 0 (.grown true), .proceed 0 .go]

/-- With a tax of a hundred it makes a hundred out of nothing. -/
example :
    let c := run (step { small with clExtentTax := 100 }) (started 9 8 1) joined
    c.given = 100000 ∧ c.total = 100100 := by
  decide +kernel

end Grant
