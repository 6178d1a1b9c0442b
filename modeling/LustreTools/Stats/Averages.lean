import Mathlib.Data.List.Induction
import LustreTools.Stats.Service

/-!
The averages that `lprocfs_import_seq_show` prints from the statistics table of a client
device. The bytes of the bulk transfers are recorded there by `ptlrpc_lprocfs_brw`.
-/
namespace StatsAverages
open Words StatsCounters StatsService

inductive Line where
  | bytesPerRpc (direction : Direction) (average : Int)
  | unitsPerRpc (units : String) (average : Int)
  | mbPerSec (whole hundredths : Int)
  deriving DecidableEq, Repr

structure Shown where
  avgWaittime : Int
  averages : List Line
  deriving DecidableEq, Repr

def ostRead : Nat := 3
def ptlrpcReqwaitCntr : Nat := 0

def rwOf : Direction → Nat
  | .read => 0
  | .write => 1

/-- The divisor of `do_div` is a `__u32`; there is no result if it is 0. -/
def doDiv (n base : Int) : Option Int :=
  if u32 base = 0 then none else some (n / u32 base)

def average (ret : Counter) : Option Int := doDiv (u64 ret.lcSum) ret.lcCount

def avgWaittime (stats : Stats) : Option Int :=
  let ret := lprocfsStatsCollect stats ptlrpcReqwaitCntr
  if ret.lcCount ≠ 0 then average ret else some 0

def bytesLine (stats : Stats) (direction : Direction) : Option (List Line × Int) :=
  let ret := lprocfsStatsCollect stats (ptlrpcLastCntr + brwReadBytes + rwOf direction)
  if ret.lcSum > 0 ∧ ret.lcCount > 0 then
    (average ret).map fun sum => ([.bytesPerRpc direction sum], s64 sum)
  else some ([], ret.lcSum)

/-- The lines of the time of a request, with `k` the bytes of one. -/
def timeLines (stats : Stats) (direction : Direction) (k : Int) : Option (List Line) :=
  let j := (opcodeOffset (ostRead + rwOf direction)).toNat + extraMaxOpcodes
  let header := stats.lsCntHeader j
  let ret := lprocfsStatsCollect stats j
  if ret.lcSum > 0 ∧ ret.lcCount ≠ 0 then
    (average ret).map fun sum =>
      let j := s32 sum
      .unitsPerRpc header.lcUnits sum ::
        if j > 0 then [.mbPerSec (u32 (k.tdiv j)) (u32 (((s32 (100 * k)).tdiv j).tmod 100))] else []
  else some []

def dataAverages (stats : Stats) (direction : Direction) : Option (List Line) :=
  (bytesLine stats direction).bind fun (lines, lcSum) =>
    (timeLines stats direction (s32 lcSum)).map (lines ++ ·)

def lprocfsImportSeqShow (stats : Stats) : Option Shown := do
  let waittime ← avgWaittime stats
  let read ← dataAverages stats .read
  let write ← dataAverages stats .write
  return ⟨waittime, read ++ write⟩

structure Transfer where
  smpId : Nat
  direction : Direction
  bytes : Int
  deriving DecidableEq, Repr

def transferred (ts : List Transfer) : Stats := serve (ts.map fun t => .brw t.smpId t.direction t.bytes)

def transfersOf (direction : Direction) (ts : List Transfer) : List Transfer :=
  ts.filter fun t => t.direction = direction

def totalBytes (ts : List Transfer) : Int := (ts.map Transfer.bytes).sum

def bytesPerRpc (direction : Direction) (lines : List Line) : List Int :=
  lines.filterMap fun
    | .bytesPerRpc d average => if d = direction then some average else none
    | _ => none

/-- Each direction that had transfers has its average, and no other has one. -/
def AveragesAgree (ts : List Transfer) : Prop :=
  ∃ shown, lprocfsImportSeqShow (transferred ts) = some shown ∧
    ∀ direction, bytesPerRpc direction shown.averages =
      if transfersOf direction ts = [] then []
      else [totalBytes (transfersOf direction ts) / (transfersOf direction ts).length]

theorem do_div_exact_iff {total count : Int} (positive : 0 < count) (enough : count ≤ total) :
    doDiv total count = some (total / count) ↔ count < 4294967296 := by
  constructor
  · intro exactly
    by_contra large
    unfold doDiv at exactly
    split at exactly
    · cases exactly
    · rename_i divisor
      rw [Option.some.injEq] at exactly
      -- The quotient is at least 1, and the truncated divisor less than half of the count.
      have base : 0 < u32 count ∧ 2 * u32 count ≤ count := by
        simp only [u32] at divisor ⊢
        omega
      have quotient : 1 ≤ total / count := by
        rw [Int.le_ediv_iff_mul_le positive]
        omega
      have whole : total / count * count ≤ total := Int.ediv_mul_le total (by omega)
      have twice : 2 * (total / count) ≤ total / u32 count := by
        rw [Int.le_ediv_iff_mul_le base.1]
        calc 2 * (total / count) * u32 count = total / count * (2 * u32 count) := by
              rw [Int.mul_comm 2, Int.mul_assoc]
          _ ≤ total / count * count := Int.mul_le_mul_of_nonneg_left base.2 (by omega)
          _ ≤ total := whole
      omega
  · intro small
    have same : u32 count = count := u32_of_in ⟨by omega, small⟩
    rw [doDiv, same, if_neg (by omega)]

/-- The slot that a transfer is recorded in: for a read, that of the read bandwidth. -/
def recordedIn : Direction → Nat
  | .read => 89
  | .write => 18

theorem transferred_snoc (ts : List Transfer) (t : Transfer) :
    transferred (ts ++ [t]) = (transferred ts).update ⟨t.smpId, recordedIn t.direction, .add t.bytes⟩ := by
  simp only [transferred, serve, List.map_append, List.map_cons, List.map_nil, List.flatMap_append,
    List.flatMap_cons, List.flatMap_nil, List.append_nil, List.foldl_append, Event.updates]
  cases t.direction <;> rfl

theorem transferred_bounded (ts : List Transfer) : (transferred ts).Bounded :=
  run_bounded _ fun _ _ => rfl

theorem transferred_table (ts : List Transfer) :
    (transferred ts).lsNum = svcStats.lsNum ∧ (transferred ts).lsCntHeader = svcStats.lsCntHeader :=
  run_table _ svcStats

theorem collect_untouched (ts : List Transfer) {j : Nat} (inside : j < svcStats.lsNum)
    (other : ∀ direction, recordedIn direction ≠ j) :
    lprocfsStatsCollect (transferred ts) j = Counter.fresh := by
  induction ts using List.reverseRecOn with
  | nil => rfl
  | append_singleton ts t ih =>
    have within : j < (transferred ts).lsNum := by
      rw [(transferred_table ts).1]
      exact inside
    rw [transferred_snoc, collect_elsewhere (transferred_bounded ts) _ within (other t.direction)]
    exact ih

theorem transfers_snoc (direction : Direction) (ts : List Transfer) (t : Transfer) :
    transfersOf direction (ts ++ [t]) =
      transfersOf direction ts ++ if t.direction = direction then [t] else [] := by
  simp only [transfersOf, List.filter_append, List.filter_cons, List.filter_nil, decide_eq_true_eq]

theorem total_snoc (ts : List Transfer) (t : Transfer) :
    totalBytes (ts ++ [t]) = totalBytes ts + t.bytes := by
  simp [totalBytes]

theorem collect_writes (ts : List Transfer) :
    (lprocfsStatsCollect (transferred ts) 18).lcCount = s64 (transfersOf .write ts).length ∧
      (lprocfsStatsCollect (transferred ts) 18).lcSum = s64 (totalBytes (transfersOf .write ts)) := by
  induction ts using List.reverseRecOn with
  | nil => exact ⟨rfl, rfl⟩
  | append_singleton ts t ih =>
    obtain ⟨count, sum⟩ := ih
    obtain ⟨num, header⟩ := transferred_table ts
    have within : 18 < (transferred ts).lsNum := by
      rw [num]
      decide
    have averaged : ((transferred ts).lsCntHeader 18).avgminmax = true := by
      rw [header]
      decide +kernel
    have bounded := transferred_bounded ts
    rw [transferred_snoc, transfers_snoc]
    cases t.direction with
    | read =>
      have apart : recordedIn .read ≠ 18 := by decide
      rw [collect_elsewhere bounded _ within apart, if_neg (by decide), List.append_nil]
      exact ⟨count, sum⟩
    | write =>
      obtain ⟨more, added⟩ := collect_add bounded within averaged t.smpId t.bytes
      rw [recordedIn, more, added, count, sum, s64_add_left, s64_add_left, if_pos rfl, total_snoc,
        List.length_append, List.length_singleton, Int.natCast_add]
      exact ⟨rfl, rfl⟩

theorem time_lines_none (ts : List Transfer) (direction : Direction) (k : Int) :
    timeLines (transferred ts) direction k = some [] := by
  have untouched : ∀ way, lprocfsStatsCollect (transferred ts)
      ((opcodeOffset (ostRead + rwOf way)).toNat + extraMaxOpcodes) = Counter.fresh := by
    intro way
    apply collect_untouched
    · cases way <;> decide
    · intro other
      cases way <;> cases other <;> decide
  rw [timeLines, untouched direction]
  rfl

theorem waittime_none (ts : List Transfer) : avgWaittime (transferred ts) = some 0 := by
  rw [avgWaittime, collect_untouched ts (by decide) (by intro other; cases other <;> decide)]
  rfl

theorem read_averages_none (ts : List Transfer) : dataAverages (transferred ts) .read = some [] := by
  have untouched : lprocfsStatsCollect (transferred ts) (ptlrpcLastCntr + brwReadBytes + rwOf .read) =
      Counter.fresh := by
    apply collect_untouched
    · decide
    · intro other
      cases other <;> decide
  rw [dataAverages, bytesLine, untouched]
  exact congrArg (Option.map _) (time_lines_none ts .read _)

theorem length_le_total {ts : List Transfer} (positive : ∀ t ∈ ts, 0 < t.bytes) :
    (ts.length : Int) ≤ totalBytes ts := by
  induction ts with
  | nil => exact Int.le_refl 0
  | cons t ts ih =>
    have first := positive t (by simp)
    have rest := ih fun x member => positive x (by simp [member])
    simp only [totalBytes, List.map_cons, List.sum_cons, List.length_cons] at rest ⊢
    omega

theorem write_averages {ts : List Transfer} (positive : ∀ t ∈ ts, 0 < t.bytes)
    (fits : totalBytes (transfersOf .write ts) < 9223372036854775808) :
    dataAverages (transferred ts) .write =
      if transfersOf .write ts = [] then some []
      else (doDiv (totalBytes (transfersOf .write ts)) (transfersOf .write ts).length).map
        fun average => [.bytesPerRpc .write average] := by
  have written : ∀ t ∈ transfersOf .write ts, 0 < t.bytes :=
    fun t member => positive t (List.mem_filter.mp member).1
  have enough := length_le_total written
  obtain ⟨count, sum⟩ := collect_writes ts
  rw [s64_of_in (by constructor <;> omega)] at count sum
  have slot : ptlrpcLastCntr + brwReadBytes + rwOf .write = 18 := rfl
  rw [dataAverages, bytesLine, slot]
  simp only [average, count, sum, time_lines_none, Option.map_some, List.append_nil]
  by_cases none : transfersOf .write ts = []
  · rw [if_pos none, none]
    rfl
  · have some : 0 < (transfersOf .write ts).length := List.length_pos_iff.mpr none
    rw [if_neg none, if_pos (by constructor <;> omega), u64_of_in (by constructor <;> omega)]
    cases doDiv (totalBytes (transfersOf .write ts)) (transfersOf .write ts).length <;> rfl

theorem import_shown (ts : List Transfer) :
    lprocfsImportSeqShow (transferred ts) =
      (dataAverages (transferred ts) .write).map fun write => ⟨0, write⟩ := by
  simp only [lprocfsImportSeqShow, waittime_none, read_averages_none, Option.bind_eq_bind, Option.bind_some,
    List.nil_append]
  cases dataAverages (transferred ts) .write <;> rfl

theorem reads_empty_iff {ts : List Transfer} :
    transfersOf .read ts = [] ↔ ∀ t ∈ ts, t.direction = .write := by
  rw [transfersOf, List.filter_eq_nil_iff]
  constructor
  · intro none t member
    have other := none t member
    rw [decide_eq_true_eq] at other
    cases way : t.direction with
    | read => exact absurd way other
    | write => rfl
  · intro all t member
    rw [all t member]
    decide

theorem writes_all {ts : List Transfer} (all : ∀ t ∈ ts, t.direction = .write) :
    transfersOf .write ts = ts := by
  rw [transfersOf, List.filter_eq_self]
  intro t member
  rw [all t member]
  decide

theorem no_reads_of_agree {ts : List Transfer} (positive : ∀ t ∈ ts, 0 < t.bytes)
    (fits : totalBytes (transfersOf .write ts) < 9223372036854775808) (agree : AveragesAgree ts) :
    ∀ t ∈ ts, t.direction = .write := by
  obtain ⟨shown, shows, values⟩ := agree
  have silent : bytesPerRpc .read shown.averages = [] := by
    rw [import_shown, write_averages positive fits] at shows
    split at shows
    · rw [Option.map_some, Option.some.injEq] at shows
      rw [← shows]
      rfl
    · rw [Option.map_map, Option.map_eq_some_iff] at shows
      obtain ⟨average, _, rfl⟩ := shows
      rfl
  have reads := values .read
  rw [silent] at reads
  rw [← reads_empty_iff]
  by_contra some
  rw [if_neg some] at reads
  cases reads

theorem writes_shown {ts : List Transfer} (positive : ∀ t ∈ ts, 0 < t.bytes)
    (fits : totalBytes (transfersOf .write ts) < 9223372036854775808) (all : ∀ t ∈ ts, t.direction = .write)
    (some : ts ≠ []) :
    lprocfsImportSeqShow (transferred ts) =
      (doDiv (totalBytes ts) ts.length).map fun average => ⟨0, [.bytesPerRpc .write average]⟩ := by
  rw [import_shown, write_averages positive fits, writes_all all, if_neg some, Option.map_map]
  rfl

/-- The averages agree exactly for runs of writes alone, with fewer than 2 ^ 32 of them. -/
theorem averages_agree_iff {ts : List Transfer} (positive : ∀ t ∈ ts, 0 < t.bytes)
    (fits : ∀ direction, totalBytes (transfersOf direction ts) < 9223372036854775808) :
    AveragesAgree ts ↔ (∀ t ∈ ts, t.direction = .write) ∧ ts.length < 4294967296 := by
  by_cases none : ts = []
  · subst none
    constructor
    · intro _
      decide
    · intro _
      exact ⟨⟨0, []⟩, rfl, fun _ => rfl⟩
  · have exactly := do_div_exact_iff (Int.natCast_pos.mpr (List.length_pos_iff.mpr none))
      (length_le_total positive)
    constructor
    · intro agree
      have all := no_reads_of_agree positive (fits .write) agree
      obtain ⟨shown, shows, values⟩ := agree
      rw [writes_shown positive (fits .write) all none, Option.map_eq_some_iff] at shows
      obtain ⟨average, divided, rfl⟩ := shows
      have writes := values .write
      rw [writes_all all, if_neg none] at writes
      have quotient : average = totalBytes ts / ts.length := by simpa [bytesPerRpc] using writes
      rw [quotient, exactly] at divided
      exact ⟨all, Int.ofNat_lt.mp divided⟩
    · intro kept
      obtain ⟨all, few⟩ := kept
      refine ⟨⟨0, [.bytesPerRpc .write (totalBytes ts / ts.length)]⟩, ?_, ?_⟩
      · rw [writes_shown positive (fits .write) all none, exactly.mpr (Int.ofNat_lt.mpr few)]
        rfl
      · intro direction
        cases direction with
        | read =>
          rw [if_pos (reads_empty_iff.mpr all)]
          rfl
        | write =>
          rw [writes_all all, if_neg none]
          rfl

theorem averages_agree_two_writes : AveragesAgree [⟨0, .write, 4096⟩, ⟨1, .write, 1000⟩] :=
  (averages_agree_iff (by decide) (by intro direction; cases direction <;> decide)).mpr (by decide)

/-- One read, of which nothing is shown. -/
theorem read_has_no_average :
    ¬ ∀ ts : List Transfer, (∀ t ∈ ts, 0 < t.bytes) →
      (∀ direction, totalBytes (transfersOf direction ts) < 9223372036854775808) → AveragesAgree ts := by
  intro always
  obtain ⟨shown, shows, values⟩ := always [⟨0, .read, 4096⟩] (by decide)
    (by intro direction; cases direction <;> decide)
  have none : lprocfsImportSeqShow (transferred [⟨0, .read, 4096⟩]) = some ⟨0, []⟩ := by decide +kernel
  rw [none, Option.some.injEq] at shows
  have read := values .read
  rw [← shows] at read
  exact absurd read (by decide)

end StatsAverages
