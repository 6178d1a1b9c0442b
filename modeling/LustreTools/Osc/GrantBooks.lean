import LustreTools.Osc.Grant
import Mathlib.Algebra.Order.BigOperators.Group.List
import Mathlib.Tactic.Positivity
import Mathlib.Tactic.Ring

/-!
The books of a client: `cl_dirty_pages` against the pages in extents and in the hands of writers,
`cl_reserved_grant` against the reservations of writers. Every primitive is described by how far it
moves the counters away from what they count; a step moves them only when a sleeper that was already
served is interrupted, or a writer finds its active extent expanded by somebody else.
-/
namespace Grant
open Runs Words

def Call.page : Call → Int
  | .woken _ rc => if rc = 0 then 1 else 0
  | .entered _ => 1
  | .expanding _ => 1
  | .settled _ _ => 1
  | .paid => 1
  | _ => 0

def Call.held : Call → Int
  | .woken bytes rc => if rc = 0 then bytes else 0
  | .entered grants => grants
  | .expanding grants => grants
  | .exited grants => grants
  | .settled grants _ => grants
  | _ => 0

def Client.pagesHeld (c : Client) : Int := c.pages + (c.calls.map Call.page).sum

def Client.grantsHeld (c : Client) : Int := (c.calls.map Call.held).sum

def Call.Ok (k : Config) : Call → Prop
  | .woken bytes rc => bytes = k.need ∧ (rc = 0 ∨ rc = edquot)
  | .entered grants => grants = k.need
  | .expanding grants => grants = k.need
  | .exited grants => grants = k.need
  | .settled grants unused => grants = k.need ∧ 0 ≤ unused
  | .shrinking target => InU64 target
  | .announced target => InU64 target
  | _ => True

/-- What holds in every run, also after a reservation was lost. -/
structure Sound (k : Config) (c : Client) : Prop where
  avail : InU64 c.clAvailGrant
  limit : InU64 c.clDirtyMaxPages
  dirty : c.clDirtyPages < 18446744073709551616
  covered : c.pagesHeld ≤ c.clDirtyPages
  pages : 0 ≤ c.pages
  calls : ∀ call ∈ c.calls, call.Ok k
  waiters : ∀ bytes ∈ c.clCacheWaiters, bytes = k.need

/-- From `c` to `d` the counters moved away from what they count by `p` pages and `g` bytes. -/
structure Books (k : Config) (c d : Client) (p g : Int) : Prop where
  sound : Sound k d
  pages : d.clDirtyPages - d.pagesHeld = c.clDirtyPages - c.pagesHeld + p
  grants : d.clReservedGrant - d.grantsHeld = c.clReservedGrant - c.grantsHeld + g
  all : d.obdDirtyPages - d.clDirtyPages - d.others = c.obdDirtyPages - c.clDirtyPages - c.others

variable {k : Config} {c d : Client}

theorem need_pos (k : Config) : 0 < k.need := by
  have chunk : 0 < k.chunk := by unfold Config.chunk; positivity
  unfold Config.need
  omega

theorem page_nonneg (call : Call) : 0 ≤ call.page := by
  cases call with
  | woken bytes rc =>
    unfold Call.page
    split <;> omega
  | _ => simp [Call.page]

theorem sum_pages_nonneg (calls : List Call) : 0 ≤ (calls.map Call.page).sum := by
  apply List.sum_nonneg
  intro page member
  obtain ⟨call, _, rfl⟩ := List.mem_map.mp member
  exact page_nonneg call

theorem Sound.dirty_nonneg (sound : Sound k c) : 0 ≤ c.clDirtyPages := by
  have covered := sound.covered
  have pages := sound.pages
  have calls := sum_pages_nonneg c.calls
  unfold Client.pagesHeld at covered
  omega

@[simp] theorem push_pagesHeld (c : Client) (call : Call) :
  (c.push call).pagesHeld = c.pagesHeld + call.page := by
  simp only [Client.pagesHeld, Client.push, List.map_cons, List.sum_cons]
  ring

@[simp] theorem push_grantsHeld (c : Client) (call : Call) :
  (c.push call).grantsHeld = c.grantsHeld + call.held := by
  simp only [Client.grantsHeld, Client.push, List.map_cons, List.sum_cons]
  ring

theorem Books.refl (sound : Sound k c) : Books k c c 0 0 := ⟨sound, by ring, by ring, rfl⟩

theorem Books.trans {e : Client} {p g q h : Int} (first : Books k c d p g) (second : Books k d e q h) :
    Books k c e (p + q) (g + h) :=
  ⟨second.sound, by rw [second.pages, first.pages]; ring, by rw [second.grants, first.grants]; ring,
    second.all.trans first.all⟩

theorem Sound.frame (sound : Sound k c) (dirty : d.clDirtyPages = c.clDirtyPages) (pages : d.pages = c.pages)
    (calls : d.calls = c.calls) (avail : InU64 d.clAvailGrant) (limit : InU64 d.clDirtyMaxPages)
    (waiters : ∀ bytes ∈ d.clCacheWaiters, bytes = k.need) : Sound k d := by
  have pagesHeld : d.pagesHeld = c.pagesHeld := by simp only [Client.pagesHeld, pages, calls]
  refine ⟨avail, limit, ?_, ?_, ?_, ?_, waiters⟩
  · rw [dirty]; exact sound.dirty
  · rw [dirty, pagesHeld]; exact sound.covered
  · rw [pages]; exact sound.pages
  · rw [calls]; exact sound.calls

theorem Books.frame {p g : Int} (books : Books k c d p g) {e : Client}
    (dirty : e.clDirtyPages = d.clDirtyPages) (reserved : e.clReservedGrant = d.clReservedGrant)
    (obd : e.obdDirtyPages = d.obdDirtyPages) (others : e.others = d.others) (pages : e.pages = d.pages)
    (calls : e.calls = d.calls) (avail : InU64 e.clAvailGrant) (limit : InU64 e.clDirtyMaxPages)
    (waiters : ∀ bytes ∈ e.clCacheWaiters, bytes = k.need) : Books k c e p g := by
  have pagesHeld : e.pagesHeld = d.pagesHeld := by simp only [Client.pagesHeld, pages, calls]
  have grantsHeld : e.grantsHeld = d.grantsHeld := by simp only [Client.grantsHeld, calls]
  refine ⟨books.sound.frame dirty pages calls avail limit waiters, ?_, ?_, ?_⟩
  · rw [dirty, pagesHeld]; exact books.pages
  · rw [reserved, grantsHeld]; exact books.grants
  · rw [obd, dirty, others]; exact books.all

theorem Books.push {p g : Int} (books : Books k c d p g) {call : Call} (ok : call.Ok k)
    (room : d.pagesHeld + call.page ≤ d.clDirtyPages) :
    Books k c (d.push call) (p - call.page) (g - call.held) where
  sound :=
    { avail := books.sound.avail
      limit := books.sound.limit
      dirty := books.sound.dirty
      covered := by rw [push_pagesHeld]; exact room
      pages := books.sound.pages
      calls := List.forall_mem_cons.mpr ⟨ok, books.sound.calls⟩
      waiters := books.sound.waiters }
  pages := by
    have before := books.pages
    rw [push_pagesHeld]
    change d.clDirtyPages - _ = _
    omega
  grants := by
    have before := books.grants
    rw [push_grantsHeld]
    change d.clReservedGrant - _ = _
    omega
  all := books.all

theorem Books.push_free {p g : Int} (books : Books k c d p g) {call : Call} (ok : call.Ok k)
    (free : call.page = 0) :
    Books k c (d.push call) p (g - call.held) := by
  have room : d.pagesHeld + call.page ≤ d.clDirtyPages := by rw [free, add_zero]; exact books.sound.covered
  have pushed := books.push ok room
  rwa [free, sub_zero] at pushed

theorem pop_books (sound : Sound k c) {i : Nat} {call : Call} (there : c.calls[i]? = some call) :
    call.Ok k ∧ Books k c { c with calls := c.calls.eraseIdx i } call.page call.held := by
  obtain ⟨low, rfl⟩ := List.getElem?_eq_some_iff.mp there
  have perm : c.calls.Perm (c.calls[i] :: c.calls.eraseIdx i) := (List.getElem_cons_eraseIdx_perm low).symm
  have pages := (perm.map Call.page).sum_eq
  have held := (perm.map Call.held).sum_eq
  rw [List.map_cons, List.sum_cons] at pages held
  have covered := sound.covered
  have share := page_nonneg c.calls[i]
  unfold Client.pagesHeld at covered
  refine ⟨sound.calls _ (List.getElem_mem low),
    ⟨sound.avail, sound.limit, sound.dirty, ?_, sound.pages, ?_, sound.waiters⟩,
    ?_, ?_, rfl⟩
  · simp only [Client.pagesHeld]
    omega
  · intro call member
    exact sound.calls call (List.mem_of_mem_eraseIdx member)
  · simp only [Client.pagesHeld]
    omega
  · simp only [Client.grantsHeld]
    omega

theorem unreserve_books (sound : Sound k c) (reserved unused : Int) :
    Books k c (unreserveGrant c reserved unused) 0 (-reserved) := by
  unfold unreserveGrant
  dsimp only
  split
  · exact ⟨⟨u64_in _, sound.limit, sound.dirty, sound.covered, sound.pages, sound.calls, sound.waiters⟩,
      (add_zero _).symm, by simp only [Client.grantsHeld]; ring, rfl⟩
  · exact ⟨⟨u64_in _, sound.limit, sound.dirty, sound.covered, sound.pages, sound.calls, sound.waiters⟩,
      (add_zero _).symm, by simp only [Client.grantsHeld]; ring, rfl⟩

theorem unreserve_all {avail : Int} (range : InU64 avail) (bytes : Int) (c : Client) :
    unreserveGrant
      { c with clAvailGrant := avail - bytes, clReservedGrant := c.clReservedGrant + bytes } bytes bytes =
      { c with clAvailGrant := avail } := by
  simp only [unreserveGrant, lt_irrefl, ↓reduceIte, sub_add_cancel, add_sub_cancel_right, u64_of_in range]

theorem try_cases (range : InU64 c.clAvailGrant) (bytes : Int) :
    oscEnterCacheTry k c bytes = (c, false) ∨
      (bytes ≤ c.clAvailGrant ∧ c.clDirtyPages < c.clDirtyMaxPages ∧
        1 + c.obdDirtyPages ≤ k.obdMaxDirtyPages ∧
        oscEnterCacheTry k c bytes =
          (oscConsumeWriteGrant
            { c with
              clAvailGrant := c.clAvailGrant - bytes
              clReservedGrant := c.clReservedGrant + bytes }, true)) := by
  unfold oscEnterCacheTry oscReserveGrant
  split_ifs with enough
  · dsimp only
    split_ifs with room
    · exact Or.inr ⟨enough, room.1, room.2, rfl⟩
    · left
      rw [unreserve_all range]
  · exact Or.inl rfl

theorem consume_books (sound : Sound k c) {bytes : Int} (nonneg : 0 ≤ bytes) (enough : bytes ≤ c.clAvailGrant)
    (room : c.clDirtyPages < c.clDirtyMaxPages) :
    Books k c
      (oscConsumeWriteGrant
        { c with
          clAvailGrant := c.clAvailGrant - bytes
          clReservedGrant := c.clReservedGrant + bytes }) 1 bytes := by
  have avail := sound.avail
  have limit := sound.limit
  have low := sound.dirty_nonneg
  have counted : u64 (c.clDirtyPages + 1) = c.clDirtyPages + 1 := by
    apply u64_of_in
    simp only [InU64] at *
    omega
  have covered := sound.covered
  simp only [Client.pagesHeld] at covered
  simp only [InU64] at avail limit
  refine ⟨⟨?_, sound.limit, ?_, ?_, sound.pages, sound.calls, sound.waiters⟩, ?_, ?_, ?_⟩
  · simp only [oscConsumeWriteGrant, InU64]
    omega
  · simp only [oscConsumeWriteGrant, counted]
    omega
  · simp only [oscConsumeWriteGrant, counted, Client.pagesHeld]
    omega
  · simp only [oscConsumeWriteGrant, counted, Client.pagesHeld]
    ring
  · simp only [oscConsumeWriteGrant, Client.grantsHeld]
    ring
  · simp only [oscConsumeWriteGrant, counted]
    ring

theorem consume_push (sound : Sound k c) {bytes : Int} (nonneg : 0 ≤ bytes) (enough : bytes ≤ c.clAvailGrant)
    (room : c.clDirtyPages < c.clDirtyMaxPages) {call : Call} (ok : call.Ok k) (page : call.page = 1)
    (held : call.held = bytes) :
    Books k c
      ((oscConsumeWriteGrant
        { c with
          clAvailGrant := c.clAvailGrant - bytes
          clReservedGrant := c.clReservedGrant + bytes }).push call) 0 0 := by
  have books := consume_books sound nonneg enough room
  have covered := sound.covered
  have moved := books.pages
  have fits := books.push ok (by rw [page]; omega)
  rwa [page, held, sub_self, sub_self] at fits

theorem wake_books (sound : Sound k c) : Books k c (wake k c k.need) 0 0 := by
  have refused : Books k c (c.push (.woken k.need edquot)) 0 0 := by
    have ok : (Call.woken k.need edquot).Ok k := ⟨rfl, Or.inr rfl⟩
    have pushed := (Books.refl sound).push_free ok rfl
    simpa [Call.held, edquot] using pushed
  unfold wake
  split_ifs
  · exact refused
  · rcases try_cases sound.avail k.need with failed | ⟨enough, room, -, went⟩
    · rw [failed]
      exact refused
    · rw [went]
      exact consume_push sound (need_pos k).le enough room ⟨rfl, Or.inl rfl⟩ rfl rfl

theorem foldl_wake_books (waiters : List Int) (equal : ∀ bytes ∈ waiters, bytes = k.need)
    (sound : Sound k c) :
    Books k c (waiters.foldl (wake k) c) 0 0 := by
  induction waiters generalizing c with
  | nil => exact Books.refl sound
  | cons bytes waiters ih =>
    obtain ⟨rfl, rest⟩ := List.forall_mem_cons.mp equal
    have first := wake_books sound
    have both := first.trans (ih rest first.sound)
    rwa [add_zero] at both

theorem Sound.emptied (sound : Sound k c) : Sound k { c with clCacheWaiters := [] } :=
  { sound with waiters := fun _ member => absurd member List.not_mem_nil }

theorem wake_all_books (sound : Sound k c) : Books k c (oscWakeCacheWaiters k c) 0 0 := by
  have woken := foldl_wake_books c.clCacheWaiters sound.waiters sound.emptied
  exact ⟨woken.sound, woken.pages, woken.grants, woken.all⟩

theorem Books.wake_all {p g : Int} (books : Books k c d p g) : Books k c (oscWakeCacheWaiters k d) p g := by
  have both := books.trans (wake_all_books books.sound)
  rwa [add_zero, add_zero] at both

theorem osc_unreserve_books (sound : Sound k c) (reserved unused : Int) :
    Books k c (oscUnreserveGrant k c reserved unused) 0 (-reserved) := by
  have books := unreserve_books sound reserved unused
  unfold oscUnreserveGrant
  split
  · exact books.wake_all
  · exact books

theorem again_books (sound : Sound k c) : Books k c (enterCacheAgain k c k.need) 0 0 := by
  unfold enterCacheAgain
  rcases try_cases sound.avail k.need with failed | ⟨enough, room, -, went⟩
  · rw [failed]
    dsimp only [enterCacheLoop]
    split
    · have waiters : ∀ bytes ∈ c.clCacheWaiters ++ [k.need], bytes = k.need := by
        intro bytes member
        rcases List.mem_append.mp member with old | new
        · exact sound.waiters bytes old
        · exact List.mem_singleton.mp new
      exact (Books.refl sound).frame rfl rfl rfl rfl rfl rfl sound.avail sound.limit waiters
    · exact Books.refl sound
  · rw [went]
    exact consume_push sound (need_pos k).le enough room rfl rfl rfl

end Grant
