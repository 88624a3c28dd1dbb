import DeadLockDetect.Analyzer.CyclesCorrect
import DeadLockDetect.Analyzer.Reorder
import DeadLockDetect.Runtime.Pipeline
import DeadLockDetect.Trace.Read

/-!
# The order of the trace

The backend writes the events ring by ring, and the analyzer replays them in the order in which
they were written; the times that are in the trace are not used.  So the graph is that of the
events in the order of their times only if the backend happens to keep the order of the events of
different threads that depend on each other: `edges_of_sorted`.  The order within each ring is kept
by the pipeline itself.
-/

namespace DeadLockDetect.Runtime

open Analyzer Pipeline

namespace Pipeline

variable {s s' : Pipeline} {ringBytes : UInt64} {memory : RingId → Nat → UInt8}

/-- The events of a ring in the trace are events committed to it, in the same order. -/
theorem events_of_ring_sublist {r : RingId}
    (h : s.written r <+: (s.committed r).map LogEvent.record) :
    ((s.tagged.filter fun x ↦ x.1 = r).map Prod.snd).Sublist
      ((s.committed r).map LogEvent.event) := by
  have hmap : (s.committed r).map LogEvent.event =
      ((s.committed r).map LogEvent.record).filterMap Record.event? := by
    rw [List.filterMap_map, ← List.filterMap_eq_map]
    exact List.filterMap_congr fun e _ ↦ e.event?_record.symm
  rw [events_of_ring, hmap]
  exact h.sublist.filterMap _

/-- The trace has the events of one ring in the order of their times, if the thread logged them in
this order. -/
theorem pairwise_tagged (h : ∀ r, s.written r <+: (s.committed r).map LogEvent.record)
    (hclock : ∀ r, (s.committed r).Pairwise fun d e ↦ d.tsNs < e.tsNs) :
    s.tagged.Pairwise fun x y ↦ x.1 = y.1 → x.2.tsNs < y.2.tsNs := by
  rw [List.pairwise_iff_forall_sublist]
  intro x y hxy hring
  have hsub : [x.2, y.2].Sublist ((s.committed x.1).map LogEvent.event) := by
    have hfilter := (hxy.filter fun z ↦ z.1 = x.1).map Prod.snd
    rw [List.filter_cons_of_pos (by simp), List.filter_cons_of_pos (by simp [hring])] at hfilter
    exact hfilter.trans (events_of_ring_sublist (h x.1))
  have hsorted : ((s.committed x.1).map LogEvent.event).Pairwise fun d e ↦ d.tsNs < e.tsNs := by
    rw [List.pairwise_map]
    exact (hclock x.1).imp fun hlt ↦ Int.ofNat_lt.mpr (UInt64.lt_iff_toNat_lt.mp hlt)
  exact List.pairwise_iff_forall_sublist.mp hsorted hsub

end Pipeline

/-- **The graph of the trace is that of the sorted trace** in every run in which the backend writes
any two events of different rings that depend on each other in the order of their times.  That each
thread logs its own events in the order of their times is up to the clock. -/
theorem edges_of_sorted (ringBytes : UInt64) (memory : RingId → Nat → UInt8)
    (hcap : ∃ k, ringBytes.toNat = 2 ^ k) (as : List Pipeline.Action) (s : Pipeline)
    (hs : (init ringBytes memory).exec ringBytes memory as = some s)
    (hclock : ∀ r, (s.committed r).Pairwise fun d e ↦ d.tsNs < e.tsNs)
    (S : List Event) (hperm : s.events.Perm S)
    (hsorted : S.Pairwise fun d e ↦ d.tsNs < e.tsNs)
    (hkept : s.tagged.Pairwise fun x y ↦
      x.1 ≠ y.1 → Dependent S x.2 y.2 → x.2.tsNs < y.2.tsNs) (key : EdgeKey) :
    key ∈ (replay s.events {}).edges ↔ key ∈ (replay S {}).edges := by
  obtain ⟨vs, pend, l, h⟩ := init_inv.exec hcap hs
  have hsame := pairwise_tagged h.written_isPrefix hclock
  refine mem_edges_replay_congr (SameOrder.of_sorted hperm hsorted ?_) key
  rw [Pipeline.events, List.pairwise_map]
  refine hsame.imp₂ (fun x y hring hcross hdep ↦ ?_) hkept
  by_cases hxy : x.1 = y.1
  · exact hring hxy
  · exact hcross hxy (hdep.elim id Dependent.symm)

/-! ## A run that swaps two threads -/

/-- Thread `t` logs an event in `n` steps. -/
def logs (t : RingId) (n : Nat) (e : LogEvent) : List Pipeline.Action :=
  .call t e :: List.replicate n (.thread t 0)

/-- A pass of the scanner over two rings with the given numbers of events. -/
def scanTwo (m n : Nat) : List Pipeline.Action :=
  List.replicate 3 (.backend 0) ++ .backend m :: List.replicate (7 * m + 5) (.backend 0) ++
    .backend n :: List.replicate (7 * n + 2) (.backend 0)

/-- Thread `2` takes the mutex at `10` and then the one at `20`.  Afterwards thread `1` creates the
mutex at `10` anew and takes the two in the other order.  The ring of thread `1` is scanned first. -/
def recreated : List Pipeline.Action :=
  logs 2 50 (mutexEvent 1 2 10 .lockPost) ++ logs 2 45 (mutexEvent 2 2 20 .lockPost) ++
    logs 2 45 (mutexEvent 3 2 20 .unlock) ++ logs 2 45 (mutexEvent 4 2 10 .unlock) ++
    logs 1 50 (mutexEvent 5 1 10 .destroy) ++ logs 1 45 (mutexEvent 6 1 10 .init) ++
    logs 1 45 (mutexEvent 7 1 20 .lockPost) ++ logs 1 45 (mutexEvent 8 1 10 .lockPost) ++
    scanTwo 4 4

/-- The events of the run in the order of their times. -/
def recreatedSorted : List Event :=
  [(mutexEvent 1 2 10 .lockPost).event, (mutexEvent 2 2 20 .lockPost).event,
    (mutexEvent 3 2 20 .unlock).event, (mutexEvent 4 2 10 .unlock).event,
    (mutexEvent 5 1 10 .destroy).event, (mutexEvent 6 1 10 .init).event,
    (mutexEvent 7 1 20 .lockPost).event, (mutexEvent 8 1 10 .lockPost).event]

/-- The thread that takes a step. -/
def Pipeline.Action.thread? : Pipeline.Action → Option RingId
  | .thread t _ => some t
  | _ => none

/-- Threads that take no step are not at odds with the clock. -/
theorem clock_of_threads {ringBytes : UInt64} {memory : RingId → Nat → UInt8}
    {as : List Pipeline.Action} {s : Pipeline} {ts : List RingId}
    (hs : (init ringBytes memory).exec ringBytes memory as = some s)
    (has : ∀ a ∈ as, ∀ t ∈ a.thread?, t ∈ ts)
    (h : ∀ t ∈ ts, (s.committed t).Pairwise fun d e ↦ d.tsNs < e.tsNs) (r : RingId) :
    (s.committed r).Pairwise fun d e ↦ d.tsNs < e.tsNs := by
  by_cases hr : r ∈ ts
  · exact h r hr
  · have hnil : s.committed r = [] := exec_committed hs fun a ha i he ↦
      hr (has a ha r (by rw [he]; rfl))
    rw [hnil]
    exact .nil

/-- The trace of this run shows an inversion that did not happen. -/
theorem not_edges_of_sorted : ∃ (s : Pipeline) (S : List Event),
    (init 256 fun _ _ ↦ 0).exec 256 (fun _ _ ↦ 0) recreated = some s ∧
    (∀ r, (s.committed r).Pairwise fun d e ↦ d.tsNs < e.tsNs) ∧
    s.events.Perm S ∧ (S.Pairwise fun d e ↦ d.tsNs < e.tsNs) ∧
    (¬ ∀ key, key ∈ (replay s.events {}).edges ↔ key ∈ (replay S {}).edges) ∧
    findCycles (replay s.events {}) 1 ≠ [] ∧ findCycles (replay S {}) 1 = [] := by
  have hrun : ((init 256 fun _ _ ↦ 0).exec 256 (fun _ _ ↦ 0) recreated).any (fun s ↦
      s.events = recreatedSorted.drop 4 ++ recreatedSorted.take 4 ∧
      ∀ t ∈ [1, 2], (s.committed t).Pairwise fun d e ↦ d.tsNs < e.tsNs) = true := by
    decide +kernel
  obtain ⟨s, hs, hstate⟩ := (Option.any_eq_true _ _).mp hrun
  obtain ⟨hevents, hclock⟩ := of_decide_eq_true hstate
  refine ⟨s, recreatedSorted, hs, clock_of_threads hs (by decide +kernel) hclock, ?_, by decide, ?_⟩
  · rw [hevents]
    exact List.perm_append_comm
  · rw [hevents]
    refine ⟨fun h ↦ ?_, by decide, by decide⟩
    have hkey := h ⟨⟨10, 1⟩, ⟨20, 1⟩⟩
    exact absurd hkey (by decide)

/-- Two threads take mutexes, and the ring of the second one is scanned first. -/
def swapped : List Pipeline.Action :=
  logs 2 50 (mutexEvent 1 2 10 .lockPost) ++ logs 2 45 (mutexEvent 2 2 20 .lockPost) ++
    logs 1 50 (mutexEvent 3 1 30 .lockPost) ++ logs 1 45 (mutexEvent 4 1 20 .lockPost) ++
    scanTwo 2 2

/-- The events of the run in the order of their times. -/
def swappedSorted : List Event :=
  [(mutexEvent 1 2 10 .lockPost).event, (mutexEvent 2 2 20 .lockPost).event,
    (mutexEvent 3 1 30 .lockPost).event, (mutexEvent 4 1 20 .lockPost).event]

theorem edges_of_sorted_swapped : ∃ s : Pipeline,
    (init 256 fun _ _ ↦ 0).exec 256 (fun _ _ ↦ 0) swapped = some s ∧
    s.events ≠ swappedSorted ∧
    ∀ key, key ∈ (replay s.events {}).edges ↔ key ∈ (replay swappedSorted {}).edges := by
  have hrun : ((init 256 fun _ _ ↦ 0).exec 256 (fun _ _ ↦ 0) swapped).any (fun s ↦
      s.events = swappedSorted.drop 2 ++ swappedSorted.take 2 ∧
      (∀ t ∈ [1, 2], (s.committed t).Pairwise fun d e ↦ d.tsNs < e.tsNs) ∧
      ∀ x ∈ s.tagged, x.2.op = .lockPost ∧
        ∀ y ∈ s.tagged, x.1 ≠ y.1 → x.2.tid ≠ y.2.tid) = true := by
    decide +kernel
  obtain ⟨s, hs, hstate⟩ := (Option.any_eq_true _ _).mp hrun
  obtain ⟨hevents, hclock, hplain⟩ := of_decide_eq_true hstate
  refine ⟨s, hs, by rw [hevents]; decide, ?_⟩
  refine edges_of_sorted 256 (fun _ _ ↦ 0) ⟨8, rfl⟩ swapped s hs
    (clock_of_threads hs (by decide +kernel) hclock) swappedSorted ?_ (by decide) ?_
  · rw [hevents]
    exact List.perm_append_comm
  · -- nothing depends on anything in the other thread
    refine List.pairwise_of_forall_mem_list fun x hx y hy hxy hdep ↦ ?_
    have hno : ∀ {d e : Event}, d.op = .lockPost → ¬ Conflict swappedSorted d e := by
      intro d e hd hc
      rcases hc.op with h | h <;> cases hd.symm.trans h
    rcases hdep with htid | hc | hc
    · exact absurd htid ((hplain x hx).2 y hy hxy)
    · exact absurd hc (hno (hplain x hx).1)
    · exact absurd hc (hno (hplain y hy).1)

end DeadLockDetect.Runtime
