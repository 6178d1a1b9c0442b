import LustreTools.Osc.GrantBooks

/-!
Whole runs of a client. The counters are off by exactly what interrupted sleepers and writers with
an active extent left behind, and as long as no sleeper did, a writer that sleeps has somebody left
to wait for.
-/
namespace Grant
open Runs Words
variable {k : Config} {c d : Client}

/-- A sleeper that was served and then cut short: its page and its reservation are forgotten. -/
def abandoned : Call → Answer → List Int
  | .woken bytes rc, .interrupted => if rc = 0 then [bytes] else []
  | _, _ => []

def lost (c : Client) : Event → List Int
  | .proceed i answer => match c.calls[i]? with
    | none => []
    | some call => abandoned call answer
  | _ => []

/-- A reservation to expand an extent that somebody else has expanded by then. -/
def overlooked : Call → Answer → List Int
  | .expanding grants, .moved => [grants]
  | _, _ => []

def forgotten (c : Client) : Event → List Int
  | .proceed i answer => match c.calls[i]? with
    | none => []
    | some call => overlooked call answer
  | _ => []

theorem Books.room {p g : Int} (sound : Sound k c) (books : Books k c d p g) :
    d.pagesHeld + p ≤ d.clDirtyPages := by
  have covered := sound.covered
  have moved := books.pages
  omega

theorem Books.goOn {p g : Int} (sound : Sound k c) (books : Books k c d p g) {next : Call} (ok : next.Ok k)
    (page : next.page = p) (held : next.held = g) : Books k c (d.push next) 0 0 := by
  have pushed := books.push ok (by rw [page]; exact books.room sound)
  rwa [page, held, sub_self, sub_self] at pushed

theorem settle_books {taken saved : Int} (sound : Sound k c) (books : Books k c d 1 k.need)
    (enough : taken ≤ k.need + saved) : Books k c (settle d k.need taken saved) 0 0 := by
  have framed : Books k c { d with extGrants := d.extGrants + taken } 1 k.need :=
    books.frame rfl rfl rfl rfl rfl rfl books.sound.avail books.sound.limit books.sound.waiters
  have ok : (Call.settled k.need (k.need - taken + saved)).Ok k := ⟨rfl, by omega⟩
  exact framed.goOn sound ok rfl rfl

theorem exit_books (sound : Sound k c) (books : Books k c d 1 k.need) :
    Books k c ((oscReleaseWriteGrant d).push (.exited k.need)) 0 0 := by
  have room := books.room sound
  have calls := sum_pages_nonneg d.calls
  have pages := books.sound.pages
  have high := books.sound.dirty
  have counted : u64 (d.clDirtyPages - 1) = d.clDirtyPages - 1 := by
    apply u64_of_in
    simp only [Client.pagesHeld] at room
    simp only [InU64]
    omega
  have moved := books.pages
  have all := books.all
  have released : Books k c (oscReleaseWriteGrant d) 0 k.need := by
    refine ⟨⟨books.sound.avail, books.sound.limit, ?_, ?_, pages, books.sound.calls,
      books.sound.waiters⟩, ?_, books.grants, ?_⟩
    · simp only [oscReleaseWriteGrant, counted]
      omega
    · simp only [oscReleaseWriteGrant, counted, Client.pagesHeld] at room ⊢
      omega
    · simp only [oscReleaseWriteGrant, counted, Client.pagesHeld] at moved ⊢
      omega
    · simp only [oscReleaseWriteGrant, counted]
      omega
  have ok : (Call.exited k.need).Ok k := rfl
  have pushed := released.push_free ok rfl
  rwa [Call.held, sub_self] at pushed

theorem paid_books (sound : Sound k c) (books : Books k c d 1 0) :
    Books k c { d with pages := d.pages + 1 } 0 0 := by
  have room := books.room sound
  have moved := books.pages
  have pages := books.sound.pages
  simp only [Client.pagesHeld] at room moved
  refine ⟨⟨books.sound.avail, books.sound.limit, books.sound.dirty, ?_, ?_, books.sound.calls,
    books.sound.waiters⟩,
    ?_, ?_, books.all⟩
  · simp only [Client.pagesHeld]
    omega
  · change 0 ≤ d.pages + 1
    omega
  · simp only [Client.pagesHeld]
    omega
  · exact books.grants

theorem proceed_books (sound : Sound k c) {call : Call} (ok : call.Ok k)
    (books : Books k c d call.page call.held)
    (answer : Answer) :
    Books k c (proceed k d call answer) (abandoned call answer).length
      ((abandoned call answer).sum + (overlooked call answer).sum) := by
  have stay (next : Call) (ok : next.Ok k) (books : Books k c d next.page next.held) :
      Books k c (d.push next) 0 0 :=
    books.goOn sound ok rfl rfl
  cases call with
  | woken bytes rc =>
    obtain ⟨rfl, answered⟩ := ok
    have served (zero : rc = 0) : Books k c (d.push (.entered k.need)) 0 0 := by
      subst zero
      exact books.goOn sound (show (Call.entered k.need).Ok k from rfl) rfl rfl
    have again (busy : rc = edquot) : Books k c (enterCacheAgain k d k.need) 0 0 := by
      subst busy
      have both := books.trans (again_books books.sound)
      simpa [Call.page, Call.held, edquot] using both
    have awake : Books k c
        (if rc ≠ edquot then d.push (.entered k.need) else enterCacheAgain k d k.need) 0 0 := by
      split_ifs with refused
      · exact served (answered.resolve_right refused)
      · exact again (not_not.mp refused)
    cases answer with
    | interrupted =>
      rcases answered with rfl | rfl
      · simpa [abandoned, overlooked, proceed, Call.page, Call.held] using books
      · simpa [abandoned, overlooked, proceed, Call.page, Call.held, edquot] using books
    | _ => exact awake
  | entered grants =>
    obtain rfl : grants = k.need := ok
    have chunk : k.chunk ≤ k.need := by simp only [Config.need]; omega
    have positive := need_pos k
    cases answer with
    | failed => exact exit_books sound books
    | held => exact settle_books sound books (by omega)
    | grown gap =>
      apply settle_books sound books
      split_ifs <;> omega
    | created => exact settle_books sound books (by omega)
    | _ => exact stay _ rfl books
  | expanding grants =>
    obtain rfl : grants = k.need := ok
    have chunk : k.chunk ≤ k.need := by simp only [Config.need]; omega
    have positive := need_pos k
    cases answer with
    | failed => exact books.goOn sound (show (Call.entered k.need).Ok k from rfl) rfl rfl
    | held => exact settle_books sound books (by omega)
    | grown gap => exact settle_books sound books (by omega)
    | moved =>
      have pushed := books.push (show Call.paid.Ok k from trivial) (books.room sound)
      simpa [abandoned, overlooked, proceed, Call.page, Call.held] using pushed
    | _ => exact stay _ rfl books
  | exited grants =>
    obtain rfl : grants = k.need := ok
    have both := books.trans (osc_unreserve_books books.sound k.need k.need)
    have done : Books k c (oscUnreserveGrant k d k.need k.need) 0 0 := by
      simpa [Call.page, Call.held] using both
    cases answer <;> exact done
  | settled grants unused =>
    obtain ⟨rfl, -⟩ := ok
    have both := books.trans (osc_unreserve_books books.sound k.need unused)
    have charged : Books k c (oscUnreserveGrant k d k.need unused) 1 0 := by
      simpa [Call.page, Call.held] using both
    have done : Books k c ((oscUnreserveGrant k d k.need unused).push .paid) 0 0 :=
      charged.goOn sound (show Call.paid.Ok k from trivial) rfl rfl
    cases answer <;> exact done
  | paid => cases answer <;> exact paid_books sound books
  | shrinking target =>
    have announced : Books k c ((oscAnnounceCached k d).1.push (.announced target)) 0 0 := by
      have framed : Books k c (oscAnnounceCached k d).1 0 0 :=
        books.frame rfl rfl rfl rfl rfl rfl books.sound.avail books.sound.limit books.sound.waiters
      exact framed.goOn sound (show (Call.announced target).Ok k from ok) rfl rfl
    cases answer with
    | failed => exact books
    | _ => exact announced
  | announced target =>
    have framed : Books k c { d with clAvailGrant := target } 0 0 :=
      books.frame rfl rfl rfl rfl rfl rfl ok books.sound.limit books.sound.waiters
    have shrunk := framed.goOn sound (show (Call.returning (u64 (d.clAvailGrant - target))).Ok k
        from trivial) rfl rfl
    cases answer <;> exact shrunk
  | returning grant =>
    cases answer with
    | failed => exact books.frame rfl rfl rfl rfl rfl rfl (u64_in _) books.sound.limit books.sound.waiters
    | reply more => exact books.frame rfl rfl rfl rfl rfl rfl (u64_in _) books.sound.limit books.sound.waiters
    | _ => exact stay _ trivial books

theorem free_books (sound : Sound k c) {nrPages : Nat} (pages : nrPages ≤ c.pages) (grants lost : Nat) :
    Books k c
      (freeGrant k
        { c with
          pages := c.pages - nrPages
          extGrants := c.extGrants - grants
          given := c.given - (grants - lost) } nrPages lost) 0 0 := by
  have covered := sound.covered
  have calls := sum_pages_nonneg c.calls
  have high := sound.dirty
  simp only [Client.pagesHeld] at covered
  have counted : u64 (c.clDirtyPages - nrPages) = c.clDirtyPages - nrPages := by
    apply u64_of_in
    simp only [InU64]
    omega
  have freed : Books k c
      { c with
        pages := c.pages - nrPages
        extGrants := c.extGrants - grants
        given := c.given - (grants - lost)
        obdDirtyPages := c.obdDirtyPages - nrPages
        clDirtyPages := u64 (c.clDirtyPages - nrPages) } 0 0 := by
    refine ⟨⟨sound.avail, sound.limit, ?_, ?_, ?_, sound.calls, sound.waiters⟩, ?_, (add_zero _).symm, ?_⟩
    · simp only [counted]
      omega
    · simp only [counted, Client.pagesHeld]
      omega
    · change 0 ≤ c.pages - (nrPages : Int)
      omega
    · simp only [counted, Client.pagesHeld]
      ring
    · simp only [counted]
      ring
  unfold freeGrant
  dsimp only
  split
  · exact freed.frame rfl rfl rfl rfl rfl rfl (u64_in _) sound.limit sound.waiters
  · exact freed.frame rfl rfl rfl rfl rfl rfl sound.avail sound.limit sound.waiters

theorem quarter_in {x : Int} (range : InU64 x) : InU64 (x - x / 4) := by
  simp only [InU64] at *
  omega

theorem adjust_limit (range : InU64 c.clDirtyMaxPages) :
    InU64 (clientAdjustMaxDirty k c).clDirtyMaxPages := by
  have product := u32_in (c.clMaxRpcsInFlight * c.clMaxPagesPerRpc)
  simp only [InU64, InU32] at range product
  dsimp only [clientAdjustMaxDirty, oscMaxDirtyDefault]
  simp only [InU64]
  split <;> omega

theorem limit_in {pagesNumber : Int}
    (good : ¬ (pagesNumber ≤ 0 ∨ oscMaxDirtyMbMax * 256 ≤ pagesNumber ∨
      (k.totalramPages / 4 : Nat) < pagesNumber)) :
    InU64 pagesNumber := by
  simp only [InU64, oscMaxDirtyMbMax] at *
  omega

theorem step_books (sound : Sound k c) (e : Event) :
    Books k c (step k c e) (lost c e).length ((lost c e).sum + (forgotten c e).sum) := by
  have same := Books.refl sound
  cases e with
  | tryEnter beyond =>
    have nonneg : 0 ≤ (if beyond = true then k.need else 0) := by
      have positive := need_pos k
      split <;> omega
    dsimp only [step, lost, forgotten]
    rcases try_cases sound.avail (if beyond = true then k.need else 0) with failed | ⟨enough, room, -, went⟩
    · rw [failed]
      exact same
    · rw [went]
      cases beyond with
      | true => exact consume_push sound nonneg enough room rfl rfl rfl
      | false => exact consume_push sound nonneg enough room trivial rfl rfl
  | enter forceSync =>
    dsimp only [step, oscEnterCache]
    split
    · exact same
    · exact again_books sound
  | interrupt i =>
    exact same.frame rfl rfl rfl rfl rfl rfl sound.avail sound.limit
      fun bytes member => sound.waiters bytes (List.mem_of_mem_eraseIdx member)
  | proceed i answer =>
    dsimp only [step, lost, forgotten]
    cases there : c.calls[i]? with
    | none => exact same
    | some call =>
      obtain ⟨ok, popped⟩ := pop_books sound there
      exact proceed_books sound ok popped answer
  | free nrPages grants dropped =>
    dsimp only [step]
    split_ifs with fits
    · exact (free_books sound fits.1 grants dropped).wake_all
    · exact same
  | send => exact same.frame rfl rfl rfl rfl rfl rfl sound.avail sound.limit sound.waiters
  | writeDone =>
    dsimp only [step]
    split
    · have framed : Books k c { c with clWInFlight := c.clWInFlight - 1 } 0 0 :=
        same.frame rfl rfl rfl rfl rfl rfl sound.avail sound.limit sound.waiters
      exact framed.wake_all
    · exact same
  | readDone => exact same.wake_all
  | update grant => exact same.frame rfl rfl rfl rfl rfl rfl (u64_in _) sound.limit sound.waiters
  | announce => exact same.frame rfl rfl rfl rfl rfl rfl sound.avail sound.limit sound.waiters
  | shrinkLocal => exact same.frame rfl rfl rfl rfl rfl rfl (quarter_in sound.avail) sound.limit sound.waiters
  | shrink target =>
    dsimp only [step, oscShrinkGrantToTarget]
    split_ifs with small
    · exact same
    · have range := sound.avail
      have ok : (Call.shrinking (max (target : Int) (cliBrwSize c))).Ok k := by
        have low : 0 ≤ max (target : Int) (cliBrwSize c) := le_max_of_le_left (by omega)
        simp only [Call.Ok, InU64] at *
        omega
      exact same.push_free ok rfl
  | otherClients delta =>
    exact ⟨⟨sound.avail, sound.limit, sound.dirty, sound.covered, sound.pages, sound.calls, sound.waiters⟩,
      (add_zero _).symm, (add_zero _).symm, by simp only [step]; ring⟩
  | setDirtyMax pagesNumber =>
    dsimp only [step, oscMaxDirtyMbSeqWrite]
    split
    · exact same
    · rename_i good
      have framed : Books k c { c with clDirtyMaxPages := pagesNumber } 0 0 :=
        same.frame rfl rfl rfl rfl rfl rfl sound.avail (limit_in good) sound.waiters
      exact framed.wake_all
  | setRpcs maxRpcsInFlight maxPagesPerRpc =>
    have framed :
    Books k c { c with clMaxRpcsInFlight := maxRpcsInFlight, clMaxPagesPerRpc := maxPagesPerRpc } 0 0 :=
      same.frame rfl rfl rfl rfl rfl rfl sound.avail sound.limit sound.waiters
    exact framed.frame rfl rfl rfl rfl rfl rfl sound.avail (adjust_limit sound.limit) sound.waiters
  | discon =>
    exact same.frame rfl rfl rfl rfl rfl rfl (show InU64 0 by decide) sound.limit sound.waiters
  | connect evicted ocdGrant =>
    have range : InU64 (oscInitGrant c evicted (u32 ocdGrant)).clAvailGrant := by
      dsimp only [oscInitGrant]
      split
      · have word := u32_in ocdGrant
        simp only [InU32, InU64] at *
        omega
      · exact u64_in _
    exact same.frame rfl rfl rfl rfl rfl rfl range sound.limit sound.waiters
  | reconnect => exact same.frame rfl rfl rfl rfl rfl rfl sound.avail sound.limit sound.waiters

theorem run_books (sound : Sound k c) (es : List Event) :
    Books k c (run (step k) c es) (trace (step k) lost c es).length
      ((trace (step k) lost c es).sum + (trace (step k) forgotten c es).sum) := by
  induction es generalizing c with
  | nil => exact Books.refl sound
  | cons e es ih =>
    have first := step_books sound e
    have both := first.trans (ih first.sound)
    rw [trace, trace, List.length_append, List.sum_append, List.sum_append, Nat.cast_add, add_add_add_comm]
    exact both

theorem started_sound {dirtyMax : Int} (range : InU64 dirtyMax) (maxRpcsInFlight maxPagesPerRpc : Nat) :
    Sound k (started dirtyMax maxRpcsInFlight maxPagesPerRpc) where
  avail := show InU64 0 by decide
  limit := range
  dirty := show (0 : Int) < 18446744073709551616 by decide
  covered := le_refl _
  pages := le_refl _
  calls := by simp [started]
  waiters := by simp [started]

/-- At any point of any run the counters are what extents and writers hold, and on top of that one
    page and one reservation for every sleeper that was served and then interrupted or timed out,
    and one reservation for every writer whose active extent was expanded by somebody else. -/
theorem counters_off_by_lost (k : Config) (dirtyMax : Int) (range : InU64 dirtyMax)
    (maxRpcsInFlight maxPagesPerRpc : Nat) (es : List Event) :
    let c := run (step k) (started dirtyMax maxRpcsInFlight maxPagesPerRpc) es
    let gone := trace (step k) lost (started dirtyMax maxRpcsInFlight maxPagesPerRpc) es
    let kept := trace (step k) forgotten (started dirtyMax maxRpcsInFlight maxPagesPerRpc) es
    c.clDirtyPages = c.pagesHeld + gone.length ∧ c.clReservedGrant = c.grantsHeld + gone.sum + kept.sum ∧
      c.obdDirtyPages = c.clDirtyPages + c.others := by
  have sound : Sound k (started dirtyMax maxRpcsInFlight maxPagesPerRpc) :=
    started_sound range maxRpcsInFlight maxPagesPerRpc
  have books := run_books sound es
  have pages := books.pages
  have grants := books.grants
  have all := books.all
  simp only [started, Client.pagesHeld, Client.grantsHeld, List.map_nil, List.sum_nil] at pages grants all
  refine ⟨?_, ?_, ?_⟩
  · simp only [started, Client.pagesHeld]
    omega
  · simp only [started, Client.grantsHeld]
    omega
  · simp only [started]
    omega

def small : Config := ⟨12, 0, 100, 800⟩

/-- A writer finds its extent expanded under its hands. Another one sleeps, is served when a page
    is written, and times out all the same. -/
def cutShort : List Event :=
  [.connect true 16384, .enter false, .proceed 0 .created, .proceed 0 .go, .proceed 0 .go, .tryEnter true,
    .proceed 0 .moved, .proceed 0 .go, .enter false, .free 1 4096 0, .proceed 0 .interrupted]

theorem counters_off_by_lost_cut_short : InU64 2 ∧
    let c := run (step small) (started 2 8 256) cutShort
    let gone := trace (step small) lost (started 2 8 256) cutShort
    let kept := trace (step small) forgotten (started 2 8 256) cutShort
    c.clDirtyPages = c.pagesHeld + gone.length ∧ c.clReservedGrant = c.grantsHeld + gone.sum + kept.sum ∧
      c.obdDirtyPages = c.clDirtyPages + c.others :=
  ⟨by decide, counters_off_by_lost small 2 (by decide) 8 256 cutShort⟩

/-- There a page stays counted that nobody has, and so do two reservations. -/
example :
    let c := run (step small) (started 2 8 256) cutShort
    c.clDirtyPages = 2 ∧ c.clReservedGrant = 8192 ∧ c.pages = 1 ∧ c.calls = [] ∧ c.clWInFlight = 0 := by
  decide +kernel

def Stirring (c : Client) : Prop :=
  0 < c.clDirtyPages ∨ 0 < c.clWInFlight ∨ ∃ grants, Call.exited grants ∈ c.calls

def Awake (c : Client) : Prop := c.clCacheWaiters ≠ [] → Stirring c

theorem try_waiters (k : Config) (c : Client) (bytes : Int) :
    (oscEnterCacheTry k c bytes).1.clCacheWaiters = c.clCacheWaiters := by
  unfold oscEnterCacheTry oscReserveGrant
  split_ifs
  · dsimp only
    split_ifs
    · rfl
    · simp only [unreserveGrant]
      split <;> rfl
  · rfl

theorem wake_waiters (k : Config) (c : Client) (bytes : Int) :
    (wake k c bytes).clCacheWaiters = c.clCacheWaiters := by
  have tried := try_waiters k c bytes
  unfold wake
  split_ifs
  · rfl
  · split
    · rename_i went
      rw [went] at tried
      exact tried
    · rename_i went
      rw [went] at tried
      exact tried

theorem wake_all_empty (k : Config) (c : Client) : (oscWakeCacheWaiters k c).clCacheWaiters = [] := by
  have kept (waiters : List Int) (c : Client) : (waiters.foldl (wake k) c).clCacheWaiters =
      c.clCacheWaiters := by
    induction waiters generalizing c with
    | nil => rfl
    | cons bytes waiters ih => rw [List.foldl_cons, ih, wake_waiters]
  exact kept c.clCacheWaiters { c with clCacheWaiters := [] }

theorem awake_of_empty (empty : c.clCacheWaiters = []) : Awake c := fun waiting => absurd empty waiting

theorem wake_all_awake (k : Config) (c : Client) : Awake (oscWakeCacheWaiters k c) :=
  awake_of_empty (wake_all_empty k c)

theorem Awake.frame (awake : Awake c) (waiters : d.clCacheWaiters = c.clCacheWaiters)
    (dirty : c.clDirtyPages ≤ d.clDirtyPages) (flight : c.clWInFlight ≤ d.clWInFlight)
    (calls : c.calls ⊆ d.calls) :
    Awake d := by
  intro waiting
  rw [waiters] at waiting
  rcases awake waiting with pages | rpcs | ⟨grants, member⟩
  · exact Or.inl (lt_of_lt_of_le pages dirty)
  · exact Or.inr (Or.inl (lt_of_lt_of_le rpcs flight))
  · exact Or.inr (Or.inr ⟨grants, calls member⟩)

theorem Awake.push (awake : Awake c) (call : Call) : Awake (c.push call) :=
  awake.frame rfl (le_refl _) (le_refl _) (List.subset_cons_self _ _)

theorem consume_awake (sound : Sound k c) (room : c.clDirtyPages < c.clDirtyMaxPages)
    (bytes : Int) (call : Call) :
    Awake ((oscConsumeWriteGrant
      { c with
        clAvailGrant := c.clAvailGrant - bytes
        clReservedGrant := c.clReservedGrant + bytes }).push call) := by
  intro _
  left
  have low := sound.dirty_nonneg
  have limit := sound.limit
  simp only [InU64] at limit
  have counted : u64 (c.clDirtyPages + 1) = c.clDirtyPages + 1 := u64_of_in (by simp only [InU64]; omega)
  simp only [oscConsumeWriteGrant, Client.push, counted]
  omega

theorem again_awake (sound : Sound k c) (awake : Awake c) (bytes : Int) :
    Awake (enterCacheAgain k c bytes) := by
  unfold enterCacheAgain
  rcases try_cases sound.avail bytes with failed | ⟨-, room, -, went⟩
  · rw [failed]
    dsimp only [enterCacheLoop]
    split
    · rename_i busy
      intro _
      rcases busy with pages | rpcs
      · exact Or.inl pages
      · exact Or.inr (Or.inl rpcs)
    · exact awake
  · rw [went]
    exact consume_awake sound room bytes _

theorem osc_unreserve_awake (awake : Awake c) (reserved unused : Int) :
    Awake (oscUnreserveGrant k c reserved unused) := by
  unfold oscUnreserveGrant
  split
  · exact wake_all_awake k _
  · unfold unreserveGrant
    dsimp only
    split <;> exact awake.frame rfl (le_refl _) (le_refl _) (List.Subset.refl _)

theorem proceed_awake (sound : Sound k d) {call : Call} (ok : call.Ok k)
    (awake : (∀ grants, call ≠ .exited grants) → Awake d) (answer : Answer) :
    Awake (proceed k d call answer) := by
  have same (e : Client) (awake : Awake d) (waiters : e.clCacheWaiters = d.clCacheWaiters)
      (dirty : e.clDirtyPages = d.clDirtyPages) (flight : e.clWInFlight = d.clWInFlight)
        (calls : e.calls = d.calls) :
      Awake e :=
    awake.frame waiters dirty.ge flight.ge (by rw [calls]; exact List.Subset.refl _)
  cases call with
  | woken bytes rc =>
    have before := awake (fun _ => Call.noConfusion)
    have next : Awake (if rc ≠ edquot then d.push (.entered bytes) else enterCacheAgain k d bytes) := by
      split_ifs
      · exact before.push _
      · exact again_awake sound before bytes
    cases answer with
    | interrupted => exact before
    | _ => exact next
  | entered grants =>
    have before := awake (fun _ => Call.noConfusion)
    have settled (taken saved : Int) : Awake (settle d grants taken saved) :=
      (same { d with extGrants := d.extGrants + taken } before rfl rfl rfl rfl).push _
    cases answer with
    | failed => exact fun _ => Or.inr (Or.inr ⟨grants, List.mem_cons_self⟩)
    | held => exact settled _ _
    | grown gap => exact settled _ _
    | created => exact settled _ _
    | _ => exact before.push _
  | expanding grants =>
    have before := awake (fun _ => Call.noConfusion)
    have settled (taken saved : Int) : Awake (settle d grants taken saved) :=
      (same { d with extGrants := d.extGrants + taken } before rfl rfl rfl rfl).push _
    cases answer with
    | held => exact settled _ _
    | grown gap => exact settled _ _
    | _ => exact before.push _
  | exited grants =>
    obtain rfl : grants = k.need := ok
    have woke : Awake (oscUnreserveGrant k d k.need k.need) := by
      rw [oscUnreserveGrant, if_pos (need_pos k)]
      exact wake_all_awake k _
    cases answer <;> exact woke
  | settled grants unused =>
    have before := awake (fun _ => Call.noConfusion)
    have next := (osc_unreserve_awake (k := k) before grants unused).push .paid
    cases answer <;> exact next
  | paid =>
    have before := awake (fun _ => Call.noConfusion)
    cases answer <;> exact same _ before rfl rfl rfl rfl
  | shrinking target =>
    have before := awake (fun _ => Call.noConfusion)
    have next : Awake ((oscAnnounceCached k d).1.push (.announced target)) :=
      (same _ before rfl rfl rfl rfl).push _
    cases answer with
    | failed => exact before
    | _ => exact next
  | announced target =>
    have before := awake (fun _ => Call.noConfusion)
    have next : Awake (shrinkGrant d target) :=
      (same { d with clAvailGrant := target } before rfl rfl rfl rfl).push _
    cases answer <;> exact next
  | returning grant =>
    have before := awake (fun _ => Call.noConfusion)
    cases answer with
    | failed => exact same _ before rfl rfl rfl rfl
    | reply more => exact same _ before rfl rfl rfl rfl
    | _ => exact before.push _

theorem pop_awake (awake : Awake c) {i : Nat} {call : Call} (there : c.calls[i]? = some call)
    (other : ∀ grants, call ≠ .exited grants) : Awake { c with calls := c.calls.eraseIdx i } := by
  intro waiting
  rcases awake waiting with pages | rpcs | ⟨grants, member⟩
  · exact Or.inl pages
  · exact Or.inr (Or.inl rpcs)
  · obtain ⟨low, rfl⟩ := List.getElem?_eq_some_iff.mp there
    have perm : c.calls.Perm (c.calls[i] :: c.calls.eraseIdx i) := (List.getElem_cons_eraseIdx_perm low).symm
    rcases List.mem_cons.mp (perm.mem_iff.mp member) with equal | rest
    · exact absurd equal.symm (other grants)
    · exact Or.inr (Or.inr ⟨grants, rest⟩)

theorem step_awake (sound : Sound k c) (awake : Awake c) (e : Event) : Awake (step k c e) := by
  have same (d : Client) (waiters : d.clCacheWaiters = c.clCacheWaiters)
      (dirty : d.clDirtyPages = c.clDirtyPages)
      (flight : c.clWInFlight ≤ d.clWInFlight) (calls : d.calls = c.calls) : Awake d :=
    awake.frame waiters dirty.ge flight (by rw [calls]; exact List.Subset.refl _)
  cases e with
  | tryEnter beyond =>
    dsimp only [step]
    rcases try_cases sound.avail (if beyond = true then k.need else 0) with failed | ⟨-, room, -, went⟩
    · rw [failed]
      exact awake
    · rw [went]
      exact consume_awake sound room _ _
  | enter forceSync =>
    dsimp only [step, oscEnterCache]
    split
    · exact awake
    · exact again_awake sound awake _
  | interrupt i =>
    intro waiting
    refine awake fun empty => waiting ?_
    simp [step, empty]
  | proceed i answer =>
    dsimp only [step]
    cases there : c.calls[i]? with
    | none => exact awake
    | some call =>
      obtain ⟨ok, popped⟩ := pop_books sound there
      exact proceed_awake popped.sound ok (pop_awake awake there) answer
  | free nrPages grants dropped =>
    dsimp only [step]
    split_ifs
    · exact wake_all_awake k _
    · exact awake
  | send => exact same _ rfl rfl (by simp only [step]; omega) rfl
  | writeDone =>
    dsimp only [step]
    split
    · exact wake_all_awake k _
    · exact awake
  | readDone => exact wake_all_awake k _
  | shrink target =>
    dsimp only [step, oscShrinkGrantToTarget]
    split_ifs
    · exact awake
    · exact awake.push _
  | setDirtyMax pagesNumber =>
    dsimp only [step, oscMaxDirtyMbSeqWrite]
    split
    · exact awake
    · exact wake_all_awake k _
  | _ => exact same _ rfl rfl (le_refl _) rfl

def Call.inside : Call → Bool
  | .woken _ rc => decide (rc = 0)
  | .entered _ => true
  | .expanding _ => true
  | .exited _ => true
  | .settled _ _ => true
  | .paid => true
  | _ => false

/-- Somebody really has what a sleeper waits for. -/
def Expected (c : Client) : Prop :=
  c.clCacheWaiters ≠ [] → 0 < c.pages ∨ 0 < c.clWInFlight ∨ ∃ call ∈ c.calls, call.inside = true

theorem inside_of_page {call : Call} (page : call.page ≠ 0) : call.inside = true := by
  cases call with
  | woken bytes rc =>
    by_contra outside
    have refused : rc ≠ 0 := by simpa [Call.inside] using outside
    exact page (if_neg refused)
  | entered _ => rfl
  | expanding _ => rfl
  | exited _ => rfl
  | settled _ _ => rfl
  | paid => rfl
  | _ => exact absurd rfl page

theorem expected_of_awake (awake : Awake c) (counted : c.clDirtyPages = c.pagesHeld) : Expected c := by
  intro waiting
  rcases awake waiting with pages | rpcs | ⟨grants, member⟩
  · by_contra nobody
    push Not at nobody
    obtain ⟨uncached, -, outside⟩ := nobody
    have idle : (c.calls.map Call.page).sum = 0 := by
      apply List.sum_eq_zero
      intro page member
      obtain ⟨call, listed, rfl⟩ := List.mem_map.mp member
      by_contra positive
      exact outside call listed (inside_of_page positive)
    rw [counted, Client.pagesHeld, idle] at pages
    omega
  · exact Or.inr (Or.inl rpcs)
  · exact Or.inr (Or.inr ⟨_, member, rfl⟩)

/-- As long as no sleeper is cut short after it was served, a writer on the list has something to
    wait for: pages in extents, a write in flight, or a writer that has just entered. -/
theorem sleepers_expected (k : Config) (dirtyMax : Int) (range : InU64 dirtyMax)
    (maxRpcsInFlight maxPagesPerRpc : Nat) (es : List Event)
    (kept : Along (step k) (fun c e => lost c e = []) (started dirtyMax maxRpcsInFlight maxPagesPerRpc) es) :
    Always (step k) Expected (started dirtyMax maxRpcsInFlight maxPagesPerRpc) es := by
  have keeps (c : Client) (e : Event)
      (good : Sound k c ∧ Awake c ∧ c.clDirtyPages = c.pagesHeld) (nothing : lost c e = []) :
      Sound k (step k c e) ∧ Awake (step k c e) ∧ (step k c e).clDirtyPages = (step k c e).pagesHeld := by
    obtain ⟨sound, awake, counted⟩ := good
    have books := step_books sound e
    have pages := books.pages
    rw [nothing] at pages
    refine ⟨books.sound, step_awake sound awake e, ?_⟩
    simp only [List.length_nil] at pages
    omega
  have start : Sound k (started dirtyMax maxRpcsInFlight maxPagesPerRpc) ∧
      Awake (started dirtyMax maxRpcsInFlight maxPagesPerRpc) ∧
      (started dirtyMax maxRpcsInFlight maxPagesPerRpc).clDirtyPages =
        (started dirtyMax maxRpcsInFlight maxPagesPerRpc).pagesHeld :=
    ⟨started_sound range _ _, awake_of_empty rfl, rfl⟩
  exact always_mono (fun c good => expected_of_awake good.2.1 good.2.2) (always_of_along keeps start kept)

def letIn : List Event :=
  [.connect true 8192, .enter false, .proceed 0 .created, .proceed 0 .go, .proceed 0 .go, .enter false,
    .free 1 4096 0, .proceed 0 .go]

theorem sleepers_expected_let_in : InU64 1 ∧
    Along (step small) (fun c e => lost c e = []) (started 1 8 256) letIn ∧
    Always (step small) Expected (started 1 8 256) letIn :=
  ⟨by decide, by decide +kernel, sleepers_expected small 1 (by decide) 8 256 letIn (by decide +kernel)⟩

end Grant
