import LustreTools.Stats.Counters

/-!
The statistics table of a service (lproc_ptlrpc.c). Its counters come from four ranges of
slots, each computed by itself: the five request counters, the extra counters after them,
the opcode counters after both, and the two bandwidth counters from LUSTRE_MAX_OPCODES on.
-/
namespace StatsService
open StatsCounters

structure Segment where
  first : Nat
  last : Nat
  deriving DecidableEq, Repr

def Segment.range (seg : Segment) : Nat := seg.last - seg.first

def ost : Segment := ⟨0, 21⟩
def mds : Segment := ⟨33, 62⟩
def ldlm : Segment := ⟨101, 108⟩
def mgs : Segment := ⟨250, 257⟩
def obd : Segment := ⟨400, 404⟩
def llog : Segment := ⟨501, 510⟩
def quota : Segment := ⟨601, 603⟩
def seq : Segment := ⟨700, 701⟩
def sec : Segment := ⟨801, 804⟩
def fld : Segment := ⟨900, 902⟩
def outUpdate : Segment := ⟨1000, 1001⟩
def lfsck : Segment := ⟨1101, 1103⟩

/-- The cases of `opcode_offset`, with the ranges before them added up. -/
def offsetFrom (opc : Nat) : Nat → List Segment → Int
  | _, [] => -1
  | base, seg :: rest =>
    if opc < seg.last then Words.s32 (opc - seg.first + base)
    else offsetFrom opc (base + seg.range) rest

def opcodeOffset (opc : Nat) : Int :=
  offsetFrom opc 0 [ost, mds, ldlm, mgs, obd, llog, quota, seq, sec, fld, outUpdate, lfsck]

def lustreMaxOpcodes : Nat :=
  ost.range + mds.range + ldlm.range + mgs.range + obd.range + llog.range + sec.range + seq.range +
    sec.range + fld.range + outUpdate.range + lfsck.range

def ptlrpcLastCntr : Nat := 5
def extraLastOpc : Nat := 14
def extraMaxOpcodes : Nat := ptlrpcLastCntr + extraLastOpc
def brwReadBytes : Nat := 12
def brwWriteBytes : Nat := 13
def ostBandwidthRead : Nat := 0
def ostBandwidthWrite : Nat := 1
def mdsReint : Nat := 36
def ldlmEnqueue : Nat := 101

/-- One entry for each of LUSTRE_MAX_OPCODES; the last is not initialised in the source. -/
def llRpcOpcodeTable : List (Nat × Option String) :=
  [(0, some "ost_reply"), (1, some "ost_getattr"), (2, some "ost_setattr"), (3, some "ost_read"),
    (4, some "ost_write"), (5, some "ost_create"), (6, some "ost_destroy"),
    (7, some "ost_get_info"), (8, some "ost_connect"), (9, some "ost_disconnect"),
    (10, some "ost_punch"), (11, some "ost_open"), (12, some "ost_close"), (13, some "ost_statfs"),
    (14, none), (15, none), (16, some "ost_sync"), (17, some "ost_set_info"),
    (18, some "ost_quotacheck"), (19, some "ost_quotactl"), (20, some "ost_quota_adjust_qunit"),
    (33, some "mds_getattr"), (34, some "mds_getattr_lock"), (35, some "mds_close"),
    (36, some "mds_reint"), (37, some "mds_readpage"), (38, some "mds_connect"),
    (39, some "mds_disconnect"), (40, some "mds_getstatus"), (41, some "mds_statfs"),
    (42, some "mds_pin"), (43, some "mds_unpin"), (44, some "mds_sync"),
    (45, some "mds_done_writing"), (46, some "mds_set_info"), (47, some "mds_quotacheck"),
    (48, some "mds_quotactl"), (49, some "mds_getxattr"), (50, some "mds_setxattr"),
    (51, some "mds_writepage"), (52, some "mds_is_subdir"), (53, some "mds_get_info"),
    (54, some "mds_hsm_state_get"), (55, some "mds_hsm_state_set"), (56, some "mds_hsm_action"),
    (57, some "mds_hsm_progress"), (58, some "mds_hsm_request"), (59, some "mds_hsm_ct_register"),
    (60, some "mds_hsm_ct_unregister"), (61, some "mds_swap_layouts"), (101, some "ldlm_enqueue"),
    (102, some "ldlm_convert"), (103, some "ldlm_cancel"), (104, some "ldlm_bl_callback"),
    (105, some "ldlm_cp_callback"), (106, some "ldlm_gl_callback"), (107, some "ldlm_set_info"),
    (250, some "mgs_connect"), (251, some "mgs_disconnect"), (252, some "mgs_exception"),
    (253, some "mgs_target_reg"), (254, some "mgs_target_del"), (255, some "mgs_set_info"),
    (256, some "mgs_config_read"), (400, some "obd_ping"), (401, some "llog_cancel"),
    (402, some "obd_quota_callback"), (403, some "dt_index_read"),
    (501, some "llog_origin_handle_open"), (502, some "llog_origin_handle_next_block"),
    (503, some "llog_origin_handle_read_header"), (504, some "llog_origin_handle_write_rec"),
    (505, some "llog_origin_handle_close"), (506, some "llog_origin_connect"),
    (507, some "llog_catinfo"), (508, some "llog_origin_handle_prev_block"),
    (509, some "llog_origin_handle_destroy"), (601, some "quota_acquire"),
    (602, some "quota_release"), (700, some "seq_query"), (801, some "sec_ctx_init"),
    (802, some "sec_ctx_init_cont"), (803, some "sec_ctx_fini"), (900, some "fld_query"),
    (901, some "fld_read"), (1000, some "out_update"), (1101, some "lfsck_notify"),
    (1102, some "lfsck_query"), (0, none)]

def llEopcodeTable : List String :=
  ["ldlm_glimpse_enqueue", "ldlm_plain_enqueue", "ldlm_extent_enqueue", "ldlm_flock_enqueue",
    "ldlm_ibits_enqueue", "mds_reint_setattr", "mds_reint_create", "mds_reint_link",
    "mds_reint_unlink", "mds_reint_rename", "mds_reint_open", "mds_reint_setxattr", "read_bytes",
    "write_bytes"]

def llOstbwOpcodeTable : List String := ["ost_bandwidth_read", "ost_bandwidth_write"]

def llOpcode2str (opcode : Nat) : Option String :=
  (llRpcOpcodeTable[(opcodeOffset opcode).toNat]?).bind Prod.snd

inductive Statistic where
  | request (i : Fin 5)
  | extra (i : Fin 14)
  | opcode (i : Fin 89)
  | bandwidth (i : Fin 2)
  deriving DecidableEq, Repr

def Statistic.slot : Statistic → Nat
  | .request i => i
  | .extra i => ptlrpcLastCntr + i
  | .opcode i => extraMaxOpcodes + i
  | .bandwidth i => lustreMaxOpcodes + i

def requestNames : List (String × String) :=
  [("req_waittime", "usec"), ("req_qdepth", "reqs"), ("req_active", "reqs"), ("req_timeout", "sec"),
    ("reqbuf_avail", "bufs")]

def svcHeader (name : Option String) (units : String) : Header := ⟨name, units, true, true⟩

def Statistic.header : Statistic → Header
  | .request i => svcHeader (requestNames[i]?.map Prod.fst) ((requestNames[i]?.map Prod.snd).getD "")
  | .extra i => svcHeader llEopcodeTable[i]?
      (if (i : Nat) = brwWriteBytes ∨ (i : Nat) = brwReadBytes then "bytes" else "reqs")
  | .opcode i => svcHeader ((llRpcOpcodeTable[i]?).bind fun entry => llOpcode2str entry.1) "usec"
  | .bandwidth i => svcHeader llOstbwOpcodeTable[i]? "bytes/usec"

def registered : List Statistic :=
  (List.finRange 5).map .request ++ (List.finRange 14).map .extra ++ (List.finRange 89).map .opcode ++
    (List.finRange 2).map .bandwidth

/-- A later call for the same slot overwrites the name. -/
def svcStats : Stats :=
  lprocfsAllocStats (extraMaxOpcodes + lustreMaxOpcodes)
    (registered.foldl (fun header c => Function.update header c.slot c.header)
      fun _ => ⟨none, "", false, false⟩)

inductive Direction where
  | read
  | write
  deriving DecidableEq, Repr

abbrev Opcode := { op : Nat // op ∈ llRpcOpcodeTable.map Prod.fst }

inductive Event where
  | rpcSent (smpId : Nat) (op : Opcode) (amount : Int)
  | brw (smpId : Nat) (direction : Direction) (bytes : Int)
  | bandwidth (smpId : Nat) (direction : Direction) (sec bytes : Int)
  deriving DecidableEq, Repr

def ptlrpcLprocfsRpcSent (smpId op : Nat) (amount : Int) : List Update :=
  let opc := opcodeOffset op
  if opc ≤ 0 then []
  else if op = ldlmEnqueue ∨ op = mdsReint then []
  else [⟨smpId, opc.toNat + extraMaxOpcodes, .add amount⟩]

def ptlrpcLprocfsBrw (smpId : Nat) (bytes : Int) : Direction → List Update
  | .read => [⟨smpId, lustreMaxOpcodes + ostBandwidthRead, .add bytes⟩]
  | .write => [⟨smpId, brwWriteBytes + ptlrpcLastCntr, .add bytes⟩]

def ptlrpcLprocfsBandwidth (smpId : Nat) (sec bytes : Int) : Direction → List Update
  | .read => [⟨smpId, lustreMaxOpcodes + ostBandwidthRead, .bandwidth sec bytes⟩]
  | .write => [⟨smpId, lustreMaxOpcodes + ostBandwidthWrite, .bandwidth sec bytes⟩]

def Event.updates : Event → List Update
  | .rpcSent smpId op amount => ptlrpcLprocfsRpcSent smpId op amount
  | .brw smpId direction bytes => ptlrpcLprocfsBrw smpId bytes direction
  | .bandwidth smpId direction sec bytes => ptlrpcLprocfsBandwidth smpId sec bytes direction

def serve (events : List Event) : Stats := (events.flatMap Event.updates).foldl Stats.update svcStats

def Event.own (e : Event) (c : Statistic) : Bool :=
  match e, c with
  | .rpcSent _ op _, .opcode i => opcodeOffset op = i
  | .brw _ .read _, .extra i => (i : Nat) = brwReadBytes
  | .brw _ .write _, .extra i => (i : Nat) = brwWriteBytes
  | .bandwidth _ .read _ _, .bandwidth i => (i : Nat) = ostBandwidthRead
  | .bandwidth _ .write _ _, .bandwidth i => (i : Nat) = ostBandwidthWrite
  | _, _ => false

/-- Sequences with the same events of the statistic, whatever stands between them, are
    collected alike. -/
def Noninterfering (c : Statistic) : Prop :=
  ∀ es es' : List Event, es.filter (·.own c) = es'.filter (·.own c) →
    lprocfsStatsCollect (serve es) c.slot = lprocfsStatsCollect (serve es') c.slot

def KeepsName (c : Statistic) : Prop :=
  ∀ d ∈ registered, d.slot = c.slot → d.header.lcName = c.header.lcName

/-- The bandwidth counters, and `llog_origin_handle_read_header` and `.._write_rec`, into
    whose slots they are laid. -/
def Overlaid (c : Statistic) : Prop :=
  c = .opcode 70 ∨ c = .opcode 71 ∨ c = .bandwidth 0 ∨ c = .bandwidth 1

@[simp] theorem max_opcodes : lustreMaxOpcodes = 89 := rfl

@[simp] theorem extra_opcodes : extraMaxOpcodes = 19 := rfl

theorem overlaid_slot {c : Statistic} : Overlaid c ↔ c.slot = 89 ∨ c.slot = 90 := by
  cases c with
  | request i =>
    simp only [Overlaid, reduceCtorEq, or_self, Statistic.slot, false_iff]
    omega
  | extra i =>
    simp only [Overlaid, reduceCtorEq, or_self, Statistic.slot, false_iff, ptlrpcLastCntr]
    omega
  | opcode i =>
    simp only [Overlaid, Statistic.opcode.injEq, reduceCtorEq, or_false, Statistic.slot, extra_opcodes]
    omega
  | bandwidth i =>
    simp only [Overlaid, Statistic.bandwidth.injEq, reduceCtorEq, false_or, Statistic.slot, max_opcodes]
    omega

theorem slot_inside (c : Statistic) : c.slot < svcStats.lsNum := by
  have num : svcStats.lsNum = 108 := rfl
  rw [num]
  cases c with
  | request i => simp only [Statistic.slot]; omega
  | extra i => simp only [Statistic.slot, ptlrpcLastCntr]; omega
  | opcode i => simp only [Statistic.slot, extra_opcodes]; omega
  | bandwidth i => simp only [Statistic.slot, max_opcodes]; omega

theorem slot_unique {c d : Statistic} (apart : ¬ Overlaid c) (same : d.slot = c.slot) : d = c := by
  rw [overlaid_slot] at apart
  cases c with
  | request i =>
    cases d with
    | request j =>
      simp only [Statistic.slot] at same
      rw [Fin.ext same]
    | extra j | opcode j | bandwidth j =>
      simp only [Statistic.slot, ptlrpcLastCntr, extra_opcodes, max_opcodes] at same
      omega
  | extra i =>
    cases d with
    | extra j =>
      simp only [Statistic.slot] at same
      rw [Fin.ext (Nat.add_left_cancel same)]
    | request j | opcode j | bandwidth j =>
      simp only [Statistic.slot, ptlrpcLastCntr, extra_opcodes, max_opcodes] at same
      omega
  | opcode i =>
    cases d with
    | opcode j =>
      simp only [Statistic.slot] at same
      rw [Fin.ext (Nat.add_left_cancel same)]
    | request j | extra j | bandwidth j =>
      simp only [Statistic.slot, ptlrpcLastCntr, extra_opcodes, max_opcodes] at same apart
      omega
  | bandwidth i =>
    simp only [Statistic.slot, max_opcodes] at apart
    omega

theorem opcode_place (op : Opcode) : ∃ i : Fin 89, opcodeOffset op = i := by
  have inside : ∀ n ∈ llRpcOpcodeTable.map Prod.fst, 0 ≤ opcodeOffset n ∧ opcodeOffset n < 89 := by decide
  obtain ⟨least, most⟩ := inside op op.property
  exact ⟨⟨(opcodeOffset op).toNat, by omega⟩, (Int.toNat_of_nonneg least).symm⟩

theorem hits_own {c : Statistic} (apart : ¬ Overlaid c) {e : Event} {u : Update} (mem : u ∈ e.updates)
    (slot : u.idx = c.slot) : e.own c = true := by
  cases e with
  | rpcSent smpId op amount =>
    obtain ⟨i, place⟩ := opcode_place op
    simp only [Event.updates, ptlrpcLprocfsRpcSent] at mem
    split at mem
    · cases mem
    · split at mem
      · cases mem
      · rw [List.mem_singleton] at mem
        subst mem
        rw [place, Int.toNat_natCast, Nat.add_comm] at slot
        have named : Statistic.opcode i = c := slot_unique apart slot
        simp [← named, Event.own, place]
  | brw smpId direction bytes =>
    cases direction with
    | read =>
      -- A read goes to the slot of the bandwidth counter.
      rw [Event.updates, ptlrpcLprocfsBrw, List.mem_singleton] at mem
      subst mem
      exact absurd (overlaid_slot.mpr (Or.inl slot.symm)) apart
    | write =>
      rw [Event.updates, ptlrpcLprocfsBrw, List.mem_singleton] at mem
      subst mem
      have named : Statistic.extra 13 = c := slot_unique apart slot
      rw [← named]
      rfl
  | bandwidth smpId direction sec bytes =>
    cases direction with
    | read =>
      rw [Event.updates, ptlrpcLprocfsBandwidth, List.mem_singleton] at mem
      subst mem
      exact absurd (overlaid_slot.mpr (Or.inl slot.symm)) apart
    | write =>
      rw [Event.updates, ptlrpcLprocfsBandwidth, List.mem_singleton] at mem
      subst mem
      exact absurd (overlaid_slot.mpr (Or.inr slot.symm)) apart

theorem hits_of_own {c : Statistic} (apart : ¬ Overlaid c) (cpu : Nat) (es : List Event) :
    (es.flatMap Event.updates).filter (·.Hits cpu c.slot) =
      ((es.filter (·.own c)).flatMap Event.updates).filter (·.Hits cpu c.slot) := by
  induction es with
  | nil => rfl
  | cons e es ih =>
    rw [List.flatMap_cons, List.filter_append, ih, List.filter_cons]
    by_cases mine : e.own c = true
    · rw [if_pos mine, List.flatMap_cons, List.filter_append]
    · have none : e.updates.filter (·.Hits cpu c.slot) = [] := by
        rw [List.filter_eq_nil_iff]
        intro u mem hit
        simp only [Update.Hits, decide_eq_true_eq] at hit
        exact mine (hits_own apart mem hit.2)
      rw [if_neg mine, none, List.nil_append]

theorem noninterfering_apart {c : Statistic} (apart : ¬ Overlaid c) : Noninterfering c := by
  intro es es' same
  have bounded : svcStats.Bounded := fun _ _ => rfl
  apply collect_congr (run_bounded _ bounded) (run_bounded _ bounded)
  intro cpu
  rw [counter_run _ _ (slot_inside c), counter_run _ _ (slot_inside c), hits_of_own apart cpu es,
    hits_of_own apart cpu es', same]

theorem keeps_name_apart {c : Statistic} (apart : ¬ Overlaid c) : KeepsName c := by
  intro d _ same
  rw [slot_unique apart same]

/-- Opcode counter 70 and the read bandwidth counter are one, as are 71 and the write one. -/
theorem interfering_overlaid {c : Statistic} (overlaid : Overlaid c) : ¬ Noninterfering c := by
  intro apart
  rcases overlaid with rfl | rfl | rfl | rfl
  · exact absurd (apart [] [.bandwidth 0 .read 1 5] rfl) (by decide +kernel)
  · exact absurd (apart [] [.bandwidth 0 .write 1 5] rfl) (by decide +kernel)
  · exact absurd (apart [] [.rpcSent 0 ⟨503, by decide⟩ 5] rfl) (by decide +kernel)
  · exact absurd (apart [] [.rpcSent 0 ⟨504, by decide⟩ 5] rfl) (by decide +kernel)

/-- A counter keeps to its own statistic and name exactly if it is not overlaid. -/
theorem service_counters_apart_iff (c : Statistic) : (Noninterfering c ∧ KeepsName c) ↔ ¬ Overlaid c := by
  constructor
  · intro kept overlaid
    exact interfering_overlaid overlaid kept.1
  · intro apart
    exact ⟨noninterfering_apart apart, keeps_name_apart apart⟩

/-- One `llog_origin_handle_read_header` counts as a sample of `ost_bandwidth_read`, whose
    name its own slot then has. -/
theorem llog_read_header_in_read_bandwidth :
    ¬ ∀ c : Statistic, Noninterfering c ∧ KeepsName c := by
  intro kept
  obtain ⟨apart, _⟩ := kept (.bandwidth 0)
  exact absurd (apart [] [.rpcSent 0 ⟨503, by decide⟩ 5] rfl) (by decide +kernel)

end StatsService
