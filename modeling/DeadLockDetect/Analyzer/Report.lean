import DeadLockDetect.Analyzer.CyclesCorrect

/-!
# The report

`report.py`: the cycles that are reported, in strict and in default mode, and the text of the
report.

## What is transcribed

* `reportedCycles` is the head of `report`: the cycles of `find_cycles`, without those whose edges
  are all read-while-reading unless the mode is strict.
* `report` returns what the source writes to its output and what it returns, the number of
  cycles.  The format strings are those of the source; a Python list of icons is `lockIcons`.
* `e.info` is never `None` in a cycle that is returned (`Graph.HasCycle.info`); where the source
  would fail on `None`, the text uses the defaults of `EdgeInfo`.
-/

namespace DeadLockDetect.Analyzer

/-! ## Which cycles are reported -/

/-- The edge was recorded between two read locks. -/
def EdgeInfo.ReadRead (i : EdgeInfo) : Prop := i.fromKind = .rwlockRd ∧ i.toKind = .rwlockRd

instance (i : EdgeInfo) : Decidable i.ReadRead := inferInstanceAs (Decidable (_ ∧ _))

/-- Some edge of the cycle was not recorded between two read locks. -/
def Cycle.Mixed (cy : Cycle) : Prop := ∃ e ∈ cy.edges, ∃ i, e.info = some i ∧ ¬ i.ReadRead

/-- All edges of the cycle were recorded between two read locks, as the report decides it. -/
def Cycle.readOnly (cy : Cycle) : Bool :=
  cy.edges.all fun e ↦ match e.info with
    | none => false
    | some i => i.fromKind = .rwlockRd && i.toKind = .rwlockRd

/-- The cycles that are reported. -/
def reportedCycles (g : Graph) (rwlockStrict : Bool) (maxPerScc : Int) : List Cycle :=
  let cycles := findCycles g maxPerScc
  if !rwlockStrict then cycles.filter fun cy ↦ !cy.readOnly else cycles

/-! ## The text -/

/-- The icons of the locks. -/
def lockIcons : List String :=
  ["🚗", "🏁", "🚀", "⭐", "🔒", "🔑", "🎯", "🎨", "🎪", "🎭",
    "🎮", "🎲", "🎰", "🎸", "🎺", "🎻", "🎼", "🎾", "🏀", "🏈",
    "⚽", "⚾", "🏐", "🏉", "🎱", "🏓", "🏸", "🏒", "🏑", "🥅",
    "🏹", "🎣", "🥊", "🥋", "🥌", "⛳", "⛸️", "🎿", "⛷️", "🏂",
    "🏋️", "🤸", "🤼", "🤽", "🤾", "🤺", "🥇", "🥈", "🥉", "🏆"]

/-- The digits of `f"{n:x}"`, padded with zeros to a width. -/
def hexPadded (width : Nat) (n : Int) : String :=
  let digits := Nat.toDigits 16 n.natAbs
  let sign := if n < 0 then ['-'] else []
  String.ofList (sign ++ List.replicate (width - sign.length - digits.length) '0' ++ digits)

/-- `f"{n:x}"`. -/
def hex (n : Int) : String := hexPadded 0 n

/-- The part of a path after its last slash. -/
def basename (path : String) : String :=
  String.ofList (path.toList.reverse.takeWhile (· ≠ '/')).reverse

/-- The locks of the cycles, by address and generation. -/
def sortedLocks (cycles : List Cycle) : List LockId :=
  ((cycles.flatMap fun cy ↦ cy.edges.flatMap fun e ↦ [e.frm, e.to]).dedup).insertionSort
    fun a b ↦ a ≤ b

/-- An icon for each lock of the cycles. -/
def getLockIconMap (cycles : List Cycle) : Dict LockId String :=
  (sortedLocks cycles).zipIdx.foldl
    (fun d (lock, i) ↦ d.set lock (lockIcons.getD (i % lockIcons.length) "🔒")) .empty

/-- A lock with its icon. -/
def formatLockWithIcon (lockId : LockId) (iconMap : Dict LockId String) (kind : LockKind) :
    String :=
  let icon := iconMap.getD lockId "🔒"
  icon ++ " Lock 0x" ++ hex lockId.addr ++ " [" ++ kindName kind ++ "] gen=" ++ toString lockId.gen

/-- The lines of a backtrace. -/
def printBt (bt : Bt) (indent : String) : String :=
  if bt.isEmpty then indent ++ "<empty>\n"
  else String.join (bt.zipIdx.map fun (f, i) ↦
    let func := if f.func ≠ "" then f.func else "??"
    let mod := if f.module ≠ "" then f.module else "??"
    let head := indent ++ "#" ++ toString i ++ "  0x" ++ hexPadded 16 f.pc ++ "  " ++ func ++
      "  (" ++ mod ++ "+0x" ++ hex f.offset ++ ")"
    if f.file ≠ "" then head ++ "  at " ++ basename f.file ++ ":" ++ toString f.line ++ "\n"
    else head ++ "\n")

/-- The line of a lock of a cycle, with the place where it was initialised. -/
def printVertex (g : Graph) (iconMap : Dict LockId String) (e : CycleEdge) : String :=
  match g.lockMeta.get? e.frm with
  | none => ""
  | some mit =>
      "  " ++ formatLockWithIcon e.frm iconMap (e.info.getD {}).fromKind ++ "\n" ++
        if mit.initBt.isEmpty then "" else "    init at:\n" ++ printBt mit.initBt "      "

/-- The lines of an edge of a cycle. -/
def printEdge (iconMap : Dict LockId String) (e : CycleEdge) : String :=
  let info := e.info.getD {}
  let fromIcon := iconMap.getD e.frm "🔒"
  let toIcon := iconMap.getD e.to "🔒"
  "  Edge " ++ fromIcon ++ " 0x" ++ hex e.frm.addr ++ " [" ++ kindName info.fromKind ++ "] -> " ++
    toIcon ++ " 0x" ++ hex e.to.addr ++ " [" ++ kindName info.toKind ++ "]   tid=" ++
    toString info.tid ++ "\n" ++
    "    holding " ++ fromIcon ++ " 0x" ++ hex e.frm.addr ++ " at:\n" ++
    printBt info.btFrom "      " ++
    "    requesting " ++ toIcon ++ " 0x" ++ hex e.to.addr ++ " at:\n" ++
    printBt info.btTo "      "

/-- The report: what is written, and the number of cycles that is returned. -/
def report (g : Graph) (rwlockStrict : Bool) (maxPerScc : Int) : String × Nat :=
  let cycles := reportedCycles g rwlockStrict maxPerScc
  let head := "=== Deadlock Detector Report ===\n" ++ "nodes=" ++ toString g.lockMeta.size ++
    " edges=" ++ toString g.edges.size ++ " cycles=" ++ toString cycles.length ++ "\n"
  if cycles.isEmpty then (head ++ "(no cycles detected)\n=== End Report ===\n", 0)
  else
    let iconMap := getLockIconMap cycles
    let mapping := String.join ((sortedLocks cycles).map fun lockId ↦
      let kind := match g.lockMeta.get? lockId with
        | some mit => mit.kind
        | none => .mutex
      "  " ++ iconMap.getD lockId "🔒" ++ " = 0x" ++ hex lockId.addr ++ " [" ++ kindName kind ++
        "] gen=" ++ toString lockId.gen ++ "\n")
    let body := String.join (cycles.zipIdx.map fun (cy, i) ↦
      "\n-- Cycle #" ++ toString (i + 1) ++ " (length=" ++ toString cy.edges.length ++ ") --\n" ++
        String.join (cy.edges.map (printVertex g iconMap)) ++
        String.join (cy.edges.map (printEdge iconMap)))
    (head ++ "\n📋 Lock Icon Mapping:\n" ++ mapping ++ "\n" ++ body ++ "=== End Report ===\n",
      cycles.length)

/-! ## What is reported -/

/-- The number that `report` returns is that of the cycles it reports. -/
theorem report_snd (g : Graph) (rwlockStrict : Bool) (maxPerScc : Int) :
    (report g rwlockStrict maxPerScc).2 = (reportedCycles g rwlockStrict maxPerScc).length := by
  unfold report
  dsimp only
  split
  · rename_i h
    rw [List.isEmpty_iff.mp h, List.length_nil]
  · rfl

theorem report_pos_iff {g : Graph} {rwlockStrict : Bool} {maxPerScc : Int} :
    0 < (report g rwlockStrict maxPerScc).2 ↔ ∃ cy, cy ∈ reportedCycles g rwlockStrict maxPerScc := by
  rw [report_snd, List.length_pos_iff_exists_mem]

theorem readOnly_eq_false_iff {cy : Cycle} (h : ∀ e ∈ cy.edges, ∃ i, e.info = some i) :
    cy.readOnly = false ↔ cy.Mixed := by
  unfold Cycle.readOnly Cycle.Mixed
  rw [List.all_eq_false]
  refine exists_congr fun e ↦ and_congr_right fun he ↦ ?_
  obtain ⟨i, hi⟩ := h e he
  rw [hi]
  simp [EdgeInfo.ReadRead]

/-- In default mode the cycles with an edge that is not read-while-reading are reported. -/
theorem mem_reportedCycles_iff {g : Graph} {maxPerScc : Int} {cy : Cycle} :
    cy ∈ reportedCycles g false maxPerScc ↔ cy ∈ findCycles g maxPerScc ∧ cy.Mixed := by
  show cy ∈ (findCycles g maxPerScc).filter (fun cy ↦ !cy.readOnly) ↔ _
  rw [List.mem_filter, Bool.not_eq_true']
  refine and_congr_right fun h ↦ readOnly_eq_false_iff fun e he ↦ ?_
  obtain ⟨i, hi, -⟩ := (findCycles_sound h).1.info e he
  exact ⟨i, hi⟩

/-! ## What a replay leaves to the report -/

namespace Graph

/-- Some thread holds `x`. -/
def Held (g : Graph) (x : LockId) : Prop := ∃ t, x ∈ g.heldIds t

/-- Some edge begins or ends in `x`. -/
def Endpoint (g : Graph) (x : LockId) : Prop := ∃ key ∈ g.edges, x = key.frm ∨ x = key.to

variable {g : Graph}

theorem Inv.mem_lockMeta (h : g.Inv) {x : LockId} (hx : g.Held x ∨ g.Endpoint x) :
    x ∈ g.lockMeta := by
  rcases hx with ⟨t, hx⟩ | ⟨key, hkey, rfl | rfl⟩
  · exact h.heldMeta t x hx
  · exact (h.edgeMeta key hkey).1
  · exact (h.edgeMeta key hkey).2

/-- No vertex of a reported cycle lacks metadata. -/
theorem Inv.exists_lockMeta (h : g.Inv) {rwlockStrict : Bool} {maxPerScc : Int} {cy : Cycle}
    (hcy : cy ∈ reportedCycles g rwlockStrict maxPerScc) {e : CycleEdge} (he : e ∈ cy.edges) :
    ∃ mit, g.lockMeta.get? e.frm = some mit := by
  have hmem : cy ∈ findCycles g maxPerScc := by
    cases rwlockStrict with
    | true => exact hcy
    | false => exact (mem_reportedCycles_iff.mp hcy).1
  obtain ⟨i, -, hi⟩ := (findCycles_sound hmem).1.info e he
  exact Dict.exists_get?_of_mem
    (h.mem_lockMeta (Or.inr ⟨⟨e.frm, e.to⟩, Dict.mem_of_get? hi, Or.inl rfl⟩))

/-- Destroying a lock leaves no edge at its lifetime. -/
theorem ne_of_mem_edges_onDestroy {addr : Int} {gen : Nat} (hg : g.addrGen.get? addr = some gen)
    {key : EdgeKey} (hkey : key ∈ (g.onDestroy addr).edges) :
    key.frm ≠ ⟨addr, gen⟩ ∧ key.to ≠ ⟨addr, gen⟩ := by
  rw [← Dict.get?_isSome_iff, get?_edges_onDestroy] at hkey
  split at hkey
  · cases hkey
  · rename_i hno
    rw [ends_iff hg, ends_iff hg] at hno
    exact not_or.mp hno

end Graph

theorem replay_append (es es' : List Event) (g : Graph) :
    replay (es ++ es') g = replay es' (replay es g) := List.foldl_append

/-- **The graph of any replay is well formed.**  Whatever the events, a stack lists distinct lock
lifetimes with positive counts; lifetimes have generations between `1` and the current one;
stacks and edges have metadata, so that no vertex of a reported cycle is skipped; no edge is a
loop; and right after a destruction no edge touches the lifetime that ended. -/
theorem replay_representation (es : List Event) :
    (∀ t, ((replay es {}).heldIds t).Nodup ∧ ∀ n ∈ (replay es {}).stack t, 1 ≤ n.holdCount) ∧
      (∀ x, (replay es {}).Held x ∨ x ∈ (replay es {}).lockMeta ∨ (replay es {}).Endpoint x →
        ∃ gen, (replay es {}).addrGen.get? x.addr = some gen ∧ 1 ≤ x.gen ∧ x.gen ≤ gen) ∧
      (∀ x, (replay es {}).Held x ∨ (replay es {}).Endpoint x → x ∈ (replay es {}).lockMeta) ∧
      (∀ rwlockStrict maxPerScc, ∀ cy ∈ reportedCycles (replay es {}) rwlockStrict maxPerScc,
        ∀ e ∈ cy.edges, ∃ mit, (replay es {}).lockMeta.get? e.frm = some mit) ∧
      (∀ key ∈ (replay es {}).edges, key.frm ≠ key.to) ∧
      ∀ e gen, e.op = .destroy → (replay es {}).addrGen.get? e.addr = some gen →
        (replay (es ++ [e]) {}).addrGen.get? e.addr = some gen ∧
          ∀ key ∈ (replay (es ++ [e]) {}).edges,
            key.frm ≠ ⟨e.addr, gen⟩ ∧ key.to ≠ ⟨e.addr, gen⟩ := by
  have h : (replay es {}).Inv := Graph.inv_empty.replay es
  refine ⟨fun t ↦ ⟨h.heldNodup t, h.heldCount t⟩, ?_, fun x hx ↦ h.mem_lockMeta hx,
    fun _ _ cy hcy e he ↦ h.exists_lockMeta hcy he, h.loopless, ?_⟩
  · intro x hx
    refine h.metaKnown x ?_
    rcases hx with hx | hx | hx
    · exact h.mem_lockMeta (Or.inl hx)
    · exact hx
    · exact h.mem_lockMeta (Or.inr hx)
  · intro e gen he hg
    have hstep : replay (es ++ [e]) {} = (replay es {}).onDestroy e.addr := by
      rw [replay_append]
      show replayStep (replay es {}) e = _
      unfold replayStep
      rw [he]
    rw [hstep]
    exact ⟨by rw [Graph.onDestroy_addrGen]; exact hg,
      fun key hkey ↦ Graph.ne_of_mem_edges_onDestroy hg hkey⟩

end DeadLockDetect.Analyzer
