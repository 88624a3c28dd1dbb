import DeadLockDetect.Lib.Run
import DeadLockDetect.Trace.Format

/-!
# The trace file of a process that forks

The backend writes the trace through a `FILE` with a large buffer.  A forked child inherits the
buffer with all that is in it and the descriptor of the file; `atfork_child` closes the `FILE`
there (`log_close_fast_for_fork_child`), and closing a `FILE` writes out what is in its buffer.

## What is transcribed

* All descriptors share the offset of the file, so whoever writes to it extends it.
* `spill` stands for every moment at which stdio empties the buffer in whole or in part: `fflush` as
  well as a buffer that is full.
* A fork does not happen within an `fwrite`, and a child that has closed the log does not touch the
  file again: the log is disabled there and `g_fp` is null.
* `written` records the history and influences nothing.
-/

namespace DeadLockDetect.Runtime

/-- The trace file, its buffer in the process that opened it, and the buffers of the children that
have not yet closed it. -/
structure LogFile where
  file : List Char
  buf : List Char
  children : List (List Char)
  isOpen : Bool
  written : List Record

/-- What happens to the trace file. -/
inductive FileAction where
  /-- `process_one_event` writes an event. -/
  | write (x : Record)
  /-- The first characters of the buffer go to the file. -/
  | spill (n : Nat)
  /-- The process forks. -/
  | fork
  /-- The `i`-th of the children calls `log_close_fast_for_fork_child`. -/
  | closeFast (i : Nat)
  /-- The end of `log_close`. -/
  | close
deriving DecidableEq

namespace LogFile

/-- The file as `log_init` leaves it. -/
def logInit (pid : Int32) (exe : Field) (mods : List ModuleEntry) : LogFile where
  file := []
  buf := printLine (headerFields pid) ++ dumpModuleMap exe mods
  children := []
  isOpen := true
  written := []

/-- The effect of an action. -/
def step (s : LogFile) : FileAction → Option LogFile
  | .write x =>
      if s.isOpen then some { s with buf := s.buf ++ x.text, written := s.written ++ [x] } else none
  | .spill n => some { s with file := s.file ++ s.buf.take n, buf := s.buf.drop n }
  | .fork => some (if s.isOpen then { s with children := s.children ++ [s.buf] } else s)
  | .closeFast i => s.children[i]?.map fun copy ↦
      { s with file := s.file ++ copy, children := s.children.eraseIdx i }
  | .close =>
      if s.isOpen then some { s with file := s.file ++ s.buf, buf := [], isOpen := false } else none

/-- A child closes the log with text in its buffer. -/
def Duplicates (s : LogFile) (a : FileAction) : Prop :=
  ∃ i copy, a = .closeFast i ∧ s.children[i]? = some copy ∧ copy ≠ []

section Invariant

variable {pid : Int32} {exe : Field} {mods : List ModuleEntry} {s s' : LogFile} {a : FileAction}

/-- What has been written, in the file or still in the buffer. -/
def out (s : LogFile) : List Char := s.file ++ s.buf

/-- Nothing is lost, and what was written is in order as long as nothing was added. -/
structure Inv (pid : Int32) (exe : Field) (mods : List ModuleEntry) (s : LogFile) : Prop where
  closed : s.isOpen = false → s.buf = []
  length_le : (traceText pid exe mods s.written).length ≤ s.out.length
  eq_of_length_eq : s.out.length = (traceText pid exe mods s.written).length →
    s.out = traceText pid exe mods s.written

/-- Something was added. -/
def Longer (pid : Int32) (exe : Field) (mods : List ModuleEntry) (s : LogFile) : Prop :=
  (traceText pid exe mods s.written).length < s.out.length

theorem traceText_concat (xs : List Record) (x : Record) :
    traceText pid exe mods (xs ++ [x]) = traceText pid exe mods xs ++ x.text := by
  rw [traceText, traceText, List.flatMap_append, List.flatMap_singleton, ← List.append_assoc]

/-- What a step does: it writes an event, lets a child add its copy of the buffer, or moves text
around. -/
theorem step_cases (h : s.step a = some s') :
    (∃ x, a = .write x ∧ s.isOpen = true ∧ s'.isOpen = true ∧ s'.out = s.out ++ x.text ∧
      s'.written = s.written ++ [x]) ∨
    (∃ i copy, a = .closeFast i ∧ s.children[i]? = some copy ∧ s'.isOpen = s.isOpen ∧
      s'.buf = s.buf ∧ s'.file = s.file ++ copy ∧ s'.written = s.written) ∨
    ((∀ i, a ≠ .closeFast i) ∧ s'.out = s.out ∧ s'.written = s.written ∧
      (s'.isOpen = false → s'.buf = [] ∨ (s.isOpen = false ∧ s'.buf <:+ s.buf))) := by
  cases a with
  | write x =>
      rw [step] at h
      split at h
      · cases h
        exact .inl ⟨x, rfl, ‹_›, ‹_›, (List.append_assoc _ _ _).symm, rfl⟩
      · cases h
  | spill n =>
      cases h
      refine .inr (.inr ⟨fun _ ↦ FileAction.noConfusion, ?_, rfl,
        fun hopen ↦ .inr ⟨hopen, List.drop_suffix _ _⟩⟩)
      rw [out, out, List.append_assoc, List.take_append_drop]
  | fork =>
      have hsame : s'.out = s.out ∧ s'.buf = s.buf ∧ s'.isOpen = s.isOpen ∧
          s'.written = s.written := by
        rw [step] at h
        cases h
        split <;> exact ⟨rfl, rfl, rfl, rfl⟩
      obtain ⟨hout, hbuf, hopen, hw⟩ := hsame
      exact .inr (.inr ⟨fun _ ↦ FileAction.noConfusion, hout, hw,
        fun hc ↦ .inr ⟨hopen.symm.trans hc, hbuf ▸ List.suffix_rfl⟩⟩)
  | closeFast i =>
      obtain ⟨copy, hcopy, rfl⟩ := Option.map_eq_some_iff.mp h
      exact .inr (.inl ⟨i, copy, rfl, hcopy, rfl, rfl, rfl, rfl⟩)
  | close =>
      rw [step] at h
      split at h
      · cases h
        exact .inr (.inr ⟨fun _ ↦ FileAction.noConfusion, List.append_nil _, rfl,
          fun _ ↦ .inl rfl⟩)
      · cases h

theorem logInit_inv : Inv pid exe mods (logInit pid exe mods) := by
  have hout : (logInit pid exe mods).out = traceText pid exe mods [] := (List.append_nil _).symm
  exact ⟨Bool.noConfusion, Nat.le_of_eq (congrArg List.length hout.symm),
    fun _ ↦ hout⟩

theorem not_longer_logInit : ¬ Longer pid exe mods (logInit pid exe mods) := by
  have hout : (logInit pid exe mods).out = traceText pid exe mods [] := (List.append_nil _).symm
  rw [Longer, hout]
  exact Nat.lt_irrefl _

theorem length_out_of_child {copy : List Char} (hbuf : s'.buf = s.buf)
    (hfile : s'.file = s.file ++ copy) : s'.out.length = s.out.length + copy.length := by
  rw [out, out, hbuf, hfile, List.length_append, List.length_append, List.length_append]
  omega

theorem Inv.step (h : Inv pid exe mods s) (hs : s.step a = some s') : Inv pid exe mods s' := by
  have hle := h.length_le
  obtain ⟨x, -, -, hopen, hout, hw⟩ | ⟨i, copy, -, -, hopen, hbuf, hfile, hw⟩ |
    ⟨-, hout, hw, hclosed⟩ := step_cases hs
  · have htext : traceText pid exe mods (s.written ++ [x]) =
        traceText pid exe mods s.written ++ x.text := traceText_concat s.written x
    refine ⟨fun hc ↦ Bool.noConfusion (hopen.symm.trans hc), ?_, fun hlen ↦ ?_⟩
    · rw [hw, htext, hout, List.length_append, List.length_append]
      exact Nat.add_le_add_right hle _
    · rw [hw, htext, hout, List.length_append, List.length_append] at hlen
      rw [hw, htext, hout, h.eq_of_length_eq (Nat.add_right_cancel hlen)]
  · have hlen := length_out_of_child hbuf hfile
    refine ⟨fun hc ↦ hbuf.trans (h.closed (hopen.symm.trans hc)), by rw [hw]; omega, fun he ↦ ?_⟩
    rw [hw] at he ⊢
    have hcopy : copy = [] := List.eq_nil_of_length_eq_zero (by omega)
    have hsame : s'.out = s.out := by rw [out, out, hbuf, hfile, hcopy, List.append_nil]
    rw [hsame] at he ⊢
    exact h.eq_of_length_eq he
  · refine ⟨fun hc ↦ ?_, by rw [hw, hout]; exact hle, by rw [hw, hout]; exact h.eq_of_length_eq⟩
    rcases hclosed hc with hnil | ⟨hopen, hsuf⟩
    · exact hnil
    · rw [h.closed hopen] at hsuf
      exact List.suffix_nil.mp hsuf

/-- A step adds something exactly when a child closes the log with text in its buffer. -/
theorem longer_step_iff (h : Inv pid exe mods s) (hs : s.step a = some s') :
    Longer pid exe mods s' ↔ Longer pid exe mods s ∨ s.Duplicates a := by
  have hle := h.length_le
  obtain ⟨x, rfl, -, -, hout, hw⟩ | ⟨i, copy, rfl, hcopy, -, hbuf, hfile, hw⟩ |
    ⟨hne, hout, hw, -⟩ := step_cases hs
  · have hdup : ¬ s.Duplicates (.write x) := by
      rintro ⟨i, copy, ha, -⟩
      cases ha
    rw [or_iff_left hdup, Longer, Longer, hw, hout, traceText_concat, List.length_append,
      List.length_append]
    exact Nat.add_lt_add_iff_right
  · have hdup : s.Duplicates (.closeFast i) ↔ copy ≠ [] := by
      constructor
      · rintro ⟨j, copy', ha, hcopy', hne⟩
        cases ha
        cases hcopy.symm.trans hcopy'
        exact hne
      · exact fun hne ↦ ⟨i, copy, rfl, hcopy, hne⟩
    have hlen := length_out_of_child hbuf hfile
    rw [hdup, Longer, Longer, hw, ← List.length_pos_iff]
    omega
  · have hdup : ¬ s.Duplicates a := by
      rintro ⟨i, copy, ha, -⟩
      exact hne i ha
    rw [or_iff_left hdup, Longer, Longer, hw, hout]

end Invariant

/-- **The children leave the trace file alone exactly when none of them closes the log with text in
its buffer.**  The file is that of the parent, once the parent has closed it. -/
theorem file_eq_traceText_iff (pid : Int32) (exe : Field) (mods : List ModuleEntry)
    (as : List FileAction) (s : LogFile) (hs : Run.run step (logInit pid exe mods) as = some s)
    (hclosed : s.isOpen = false) :
    s.file = traceText pid exe mods s.written ↔
      ¬ Run.Took step Duplicates (logInit pid exe mods) as := by
  have hinv : Inv pid exe mods s :=
    Run.run_inv (fun _ _ _ _ h hs ↦ h.step hs) logInit_inv hs
  have hlonger : Longer pid exe mods s ↔ Run.Took step Duplicates (logInit pid exe mods) as :=
    (Run.run_iff (fun _ _ _ h hs ↦ h.step hs) (fun _ _ _ h hs ↦ longer_step_iff h hs) logInit_inv
      hs).trans (or_iff_right not_longer_logInit)
  have hout : s.out = s.file := by rw [out, hinv.closed hclosed, List.append_nil]
  have hle := hinv.length_le
  rw [← hlonger, Longer, ← hout]
  constructor
  · intro he
    rw [he]
    exact Nat.lt_irrefl _
  · exact fun hlt ↦ hinv.eq_of_length_eq (by omega)

/-- The child is forked while the buffer is empty. -/
def forkedFlushed : List FileAction :=
  [.spill 100, .fork, .write (mutexEvent 1 2 10 .lockPost).record, .closeFast 0, .close]

/-- The child is forked with the header in the buffer. -/
def forkedBuffered : List FileAction :=
  [.fork, .write (mutexEvent 1 2 10 .lockPost).record, .closeFast 0, .close]

/-- Whether a child closes the log with text in its buffer. -/
def duplicates (s : LogFile) : FileAction → Bool
  | .closeFast i => s.children[i]?.any fun copy ↦ copy ≠ []
  | _ => false

theorem duplicates_eq_true {s : LogFile} {a : FileAction} (h : s.Duplicates a) :
    s.duplicates a = true := by
  obtain ⟨i, copy, rfl, hcopy, hne⟩ := h
  rw [duplicates, hcopy, Option.any_some]
  exact decide_eq_true hne

theorem file_eq_traceText_iff_forkedFlushed : ∃ s,
    Run.run step (logInit 1 ⟨[], by decide⟩ []) forkedFlushed = some s ∧ s.isOpen = false ∧
    s.written = [(mutexEvent 1 2 10 .lockPost).record] ∧
    s.file = traceText 1 ⟨[], by decide⟩ [] s.written := by
  have hno : ¬ Run.Took step Duplicates (logInit 1 ⟨[], by decide⟩ []) forkedFlushed :=
    Run.not_took_of_avoids (I := fun _ ↦ True) (fun _ _ _ _ _ _ ↦ trivial)
      (fun _ _ _ h ↦ duplicates_eq_true h) trivial (by decide +kernel)
  exact ⟨_, rfl, rfl, rfl,
    (file_eq_traceText_iff 1 ⟨[], by decide⟩ [] forkedFlushed _ rfl rfl).mpr hno⟩

/-- The child writes the header a second time. -/
theorem not_file_eq_traceText :
    ¬ ∀ (pid : Int32) (exe : Field) (mods : List ModuleEntry) (as : List FileAction) (s : LogFile),
      Run.run step (logInit pid exe mods) as = some s → s.isOpen = false →
        s.file = traceText pid exe mods s.written := by
  intro h
  have hfile := h 1 ⟨[], by decide⟩ [] forkedBuffered _ rfl rfl
  exact absurd hfile (by decide +kernel)

end LogFile

end DeadLockDetect.Runtime
