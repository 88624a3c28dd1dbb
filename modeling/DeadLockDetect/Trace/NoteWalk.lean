import DeadLockDetect.Trace.ModuleMap
import Mathlib.Logic.Relation

/-!
# What the walk over the notes reads

`extract_build_id` checks that the note at `p`, with its sizes rounded up, ends inside the segment.
The check says nothing of a size that is rounded up to `0`, and such a size is used unrounded
afterwards: `extractBuildId_contained_iff` says for which segments nothing outside of the segment is
read.

The walk ends for every segment: each note starts behind the one before it.
-/

namespace DeadLockDetect.Runtime

/-- A range of addresses with an end behind it. -/
structure Segment where
  base : UInt64
  size : UInt64
  fits : base.toNat + size.toNat < 2 ^ 64

namespace Segment

variable (seg : Segment) (mem : Memory)

/-- The address behind the segment. -/
def stop : UInt64 := seg.base + seg.size

/-- The address lies in the segment. -/
def Contains (a : UInt64) : Prop := seg.base ≤ a ∧ a < seg.stop

/-- A note ends at `q` that starts at `p` and is not the build id. -/
def Follows (p q : UInt64) : Prop :=
  mem.nextAt p ≤ seg.stop.toNat ∧ ¬ mem.IsBuildId p ∧ q.toNat = mem.nextAt p

/-- A note starts at `p`, or the notes end there. -/
def NoteAt (p : UInt64) : Prop := Relation.ReflTransGen (seg.Follows mem) seg.base p

/-- What the note at `p` needs for the walk to stay in the segment.  If it ends in the segment by
its rounded sizes, then a size that is rounded up to `0` must still have its bytes there. -/
structure Sound (p : UInt64) : Prop where
  /-- The pointer behind the header does not wrap around. -/
  header : p.toNat + nhdrSize < 2 ^ 64
  name : mem.nextAt p ≤ seg.stop.toNat → mem.Compared p → ¬ Short (mem.nhdr p).namesz →
    p.toNat + nhdrSize + 4 ≤ seg.stop.toNat
  desc : mem.nextAt p ≤ seg.stop.toNat → mem.IsBuildId p → ¬ Short (mem.nhdr p).descsz →
    mem.descAt p + (mem.nhdr p).descsz.toNat ≤ seg.stop.toNat

theorem toNat_stop : seg.stop.toNat = seg.base.toNat + seg.size.toNat := by
  rw [stop, UInt64.toNat_add]
  exact Nat.mod_eq_of_lt seg.fits

theorem base_le_stop : seg.base ≤ seg.stop := by
  rw [UInt64.le_iff_toNat_le, toNat_stop]
  exact Nat.le_add_right _ _

variable {seg mem}

/-- Some bytes lie in the segment if they end in it. -/
theorem contains_addrs_iff {p : UInt64} (hbase : seg.base ≤ p) (hstop : p.toNat ≤ seg.stop.toNat)
    (n : Nat) : (∀ a ∈ addrs p n, seg.Contains a) ↔ p.toNat + n ≤ seg.stop.toNat := by
  have hlt := seg.stop.toNat_lt
  constructor
  · intro h
    by_contra hover
    -- the end of the segment itself is among the bytes
    have hmem : seg.stop ∈ addrs p n := by
      refine List.mem_map.mpr ⟨seg.stop.toNat - p.toNat, List.mem_range.mpr (by omega), ?_⟩
      apply UInt64.toNat_inj.mp
      rw [UInt64.toNat_add, UInt64.toNat_ofNat', Nat.add_mod_mod, Nat.add_sub_cancel' hstop,
        Nat.mod_eq_of_lt hlt]
    exact UInt64.lt_irrefl _ (h _ hmem).2
  · intro hle a ha
    obtain ⟨i, hi, rfl⟩ := List.mem_map.mp ha
    have hi := List.mem_range.mp hi
    have hadd : (p + UInt64.ofNat i).toNat = p.toNat + i := by
      rw [UInt64.toNat_add, UInt64.toNat_ofNat', Nat.add_mod_mod, Nat.mod_eq_of_lt (by omega)]
    rw [UInt64.le_iff_toNat_le] at hbase
    rw [Contains, UInt64.le_iff_toNat_le, UInt64.lt_iff_toNat_lt, hadd]
    omega

/-! ## One turn -/

section Turn

variable {p : UInt64} (hbase : seg.base ≤ p) (hnext : mem.nextAt p ≤ seg.stop.toNat)

include hnext

/-- The header of a note that ends in the segment. -/
theorem header_le : p.toNat + nhdrSize ≤ seg.stop.toNat :=
  (mem.le_descAt p).trans ((mem.le_nextAt p).trans hnext)

theorem header_lt : p.toNat + nhdrSize < 2 ^ 64 := (header_le hnext).trans_lt seg.stop.toNat_lt

/-- Where the next note starts. -/
theorem follows_iff (hid : ¬ mem.IsBuildId p) (q : UInt64) :
    seg.Follows mem p q ↔ q = .ofNat (mem.nextAt p) := by
  have hq : (UInt64.ofNat (mem.nextAt p)).toNat = mem.nextAt p :=
    UInt64.toNat_ofNat_of_lt' (hnext.trans_lt seg.stop.toNat_lt)
  constructor
  · intro h
    exact UInt64.toNat_inj.mp (h.2.2.trans hq.symm)
  · rintro rfl
    exact ⟨hnext, hid, hq⟩

include hbase

theorem contains_header : ∀ a ∈ addrs p nhdrSize, seg.Contains a := by
  have hle := header_le hnext
  exact (contains_addrs_iff hbase (by omega) nhdrSize).mpr hle

/-- Four bytes of the name lie in the segment, unless the size of the name is rounded up to `0`. -/
theorem contains_name_iff (hcmp : mem.Compared p) :
    (∀ a ∈ addrs (p + 12) 4, seg.Contains a) ↔
      (¬ Short (mem.nhdr p).namesz → p.toNat + nhdrSize + 4 ≤ seg.stop.toNat) := by
  have hname := mem.toNat_name hnext
  have hbase' : seg.base ≤ p + 12 := by
    rw [UInt64.le_iff_toNat_le] at hbase ⊢
    omega
  rw [contains_addrs_iff hbase' (hname.trans_le (header_le hnext)), hname]
  refine ⟨fun h _ ↦ h, fun h ↦ ?_⟩
  by_cases hshort : Short (mem.nhdr p).namesz
  · have hfour : 4 ≤ (mem.nhdr p).namesz.toNat := UInt32.le_iff_toNat_le.mp hcmp.2
    have hdesc := (mem.le_nextAt p).trans hnext
    rw [Memory.descAt, toNat_roundUp_of_short hshort] at hdesc
    omega
  · exact h hshort

/-- The descriptor lies in the segment, unless its size is rounded up to `0`. -/
theorem contains_desc_iff :
    (∀ a ∈ addrs (.ofNat (mem.descAt p)) (mem.nhdr p).descsz.toNat, seg.Contains a) ↔
      (¬ Short (mem.nhdr p).descsz →
        mem.descAt p + (mem.nhdr p).descsz.toNat ≤ seg.stop.toNat) := by
  have hle := (mem.le_nextAt p).trans hnext
  have hdesc : (UInt64.ofNat (mem.descAt p)).toNat = mem.descAt p :=
    UInt64.toNat_ofNat_of_lt' (hle.trans_lt seg.stop.toNat_lt)
  have hbase' : seg.base ≤ UInt64.ofNat (mem.descAt p) := by
    have hp := mem.le_descAt p
    rw [UInt64.le_iff_toNat_le] at hbase ⊢
    omega
  rw [contains_addrs_iff hbase' (hdesc.trans_le hle), hdesc]
  refine ⟨fun h _ ↦ h, fun h ↦ ?_⟩
  by_cases hshort : Short (mem.nhdr p).descsz
  · rw [Memory.nextAt, toNat_roundUp_of_short hshort] at hnext
    omega
  · exact h hshort

end Turn

/-- What was read when a turn is over. -/
def readsOf : NoteResult ⊕ NoteWalk → List UInt64 := Sum.elim NoteResult.reads NoteWalk.reads

theorem not_exists_inl (r : NoteResult) (q : UInt64) :
    ¬ ∃ reads, (.inl r : NoteResult ⊕ NoteWalk) = .inr ⟨q, reads⟩ := by
  rintro ⟨reads, h⟩
  cases h

theorem exists_inr_iff (p q : UInt64) (rs : List UInt64) :
    q = p ↔ ∃ reads, (.inr ⟨p, rs⟩ : NoteResult ⊕ NoteWalk) = .inr ⟨q, reads⟩ := by
  constructor
  · rintro rfl
    exact ⟨rs, rfl⟩
  · rintro ⟨reads, h⟩
    cases h
    rfl

/-- A turn stays in the segment if its note is sound, and goes on behind a note that is not the
build id. -/
theorem noteTurn_reads {s : NoteWalk} (hbase : seg.base ≤ s.p) (hstop : s.p ≤ seg.stop) :
    ∃ rs, readsOf (noteTurn mem seg.stop s) = s.reads ++ rs ∧
      ((∀ a ∈ rs, seg.Contains a) ↔ seg.Sound mem s.p) ∧
      ∀ q, seg.Follows mem s.p q ↔ ∃ reads, noteTurn mem seg.stop s = .inr ⟨q, reads⟩ := by
  have hstep := noteTurn_step mem seg.stop s
  generalize noteTurn mem seg.stop s = out at hstep
  have hle : s.p.toNat ≤ seg.stop.toNat := UInt64.le_iff_toNat_le.mp hstop
  have hlt := seg.stop.toNat_lt
  have hadd : (s.p + 12).toNat = (s.p.toNat + nhdrSize) % 2 ^ 64 := UInt64.toNat_add _ _
  cases hstep with
  | done h =>
      have hnot : ¬ mem.nextAt s.p ≤ seg.stop.toNat := fun hnext ↦
        UInt64.lt_irrefl _ (UInt64.lt_of_lt_of_le h (mem.name_le hnext))
      have hheader : s.p.toNat + nhdrSize < 2 ^ 64 := by
        rw [UInt64.lt_iff_toNat_lt, hadd] at h
        rw [nhdrSize] at h ⊢
        omega
      refine ⟨[], (List.append_nil _).symm, ⟨fun _ ↦ ⟨hheader, ?_, ?_⟩, fun _ ↦ ?_⟩, fun q ↦ ?_⟩
      · exact fun hnext ↦ absurd hnext hnot
      · exact fun hnext ↦ absurd hnext hnot
      · exact List.forall_mem_nil _
      · exact iff_of_false (fun hq ↦ hnot hq.1) (not_exists_inl _ q)
  | beyond hp hnext =>
      have hnot : ¬ mem.nextAt s.p ≤ seg.stop.toNat := Nat.not_le_of_lt hnext
      refine ⟨_, rfl, ?_, fun q ↦ iff_of_false (fun hq ↦ hnot hq.1) (not_exists_inl _ q)⟩
      rw [contains_addrs_iff hbase hle]
      refine ⟨fun h ↦ ⟨h.trans_lt hlt, ?_, ?_⟩, fun h ↦ ?_⟩
      · exact fun hnext ↦ absurd hnext hnot
      · exact fun hnext ↦ absurd hnext hnot
      · rwa [UInt64.le_iff_toNat_le, hadd, Nat.mod_eq_of_lt h.header] at hp
  | found hnext h =>
      refine ⟨_, List.append_assoc _ _ _ |>.trans (List.append_assoc _ _ _), ?_, fun q ↦ ?_⟩
      · rw [List.forall_mem_append, List.forall_mem_append, contains_name_iff hbase hnext h.1,
          contains_desc_iff hbase hnext]
        constructor
        · rintro ⟨_, hname, hdesc⟩
          exact ⟨header_lt hnext, fun _ _ ↦ hname, fun _ _ ↦ hdesc⟩
        · intro hsound
          exact ⟨contains_header hbase hnext, hsound.name hnext h.1, hsound.desc hnext h⟩
      · exact iff_of_false (fun hq ↦ hq.2.1 h) (not_exists_inl _ q)
  | other hnext hcmp h =>
      refine ⟨_, List.append_assoc _ _ _, ?_, fun q ↦
        (follows_iff hnext h q).trans (exists_inr_iff _ q _)⟩
      · rw [List.forall_mem_append, contains_name_iff hbase hnext hcmp]
        constructor
        · rintro ⟨_, hname⟩
          exact ⟨header_lt hnext, fun _ _ ↦ hname, fun _ hid ↦ absurd hid h⟩
        · intro hsound
          exact ⟨contains_header hbase hnext, hsound.name hnext hcmp⟩
  | skip hnext hcmp =>
      have h : ¬ mem.IsBuildId s.p := fun hid ↦ hcmp hid.1
      refine ⟨_, rfl, ?_, fun q ↦ (follows_iff hnext h q).trans (exists_inr_iff _ q _)⟩
      · constructor
        · intro _
          exact ⟨header_lt hnext, fun _ hc ↦ absurd hc hcmp, fun _ hid ↦ absurd hid h⟩
        · intro _
          exact contains_header hbase hnext

/-! ## The whole walk -/

/-- What is reachable from a note, one note further. -/
theorem forall_reachable_iff (C : UInt64 → Prop) (p : UInt64) :
    (∀ q, Relation.ReflTransGen (seg.Follows mem) p q → C q) ↔
      C p ∧ ∀ q, seg.Follows mem p q →
        ∀ q', Relation.ReflTransGen (seg.Follows mem) q q' → C q' := by
  constructor
  · intro h
    exact ⟨h p .refl, fun q hq q' hq' ↦ h q' (.head hq hq')⟩
  · rintro ⟨hp, h⟩ q hq
    cases hq.cases_head with
    | inl heq => exact heq ▸ hp
    | inr hnext =>
        obtain ⟨c, hpc, hcq⟩ := hnext
        exact h c hpc q hcq

/-- The walk from a note on stays in the segment if that note and those behind it are sound. -/
theorem contained_iff_of_ends {s : NoteWalk} {r : NoteResult}
    (h : Loop.Ends (noteTurn mem seg.stop) s r) (hbase : seg.base ≤ s.p)
    (hstop : s.p ≤ seg.stop) :
    (∀ a ∈ r.reads, seg.Contains a) ↔ (∀ a ∈ s.reads, seg.Contains a) ∧
      ∀ q, Relation.ReflTransGen (seg.Follows mem) s.p q → seg.Sound mem q := by
  induction h with
  | @leave s r hs =>
      obtain ⟨rs, hreads, hsound, hnext⟩ := @noteTurn_reads seg mem s hbase hstop
      rw [hs] at hreads hnext
      have hend (q : UInt64) : ¬ seg.Follows mem s.p q := fun hq ↦ by
        obtain ⟨_, hq⟩ := (hnext q).mp hq
        cases hq
      have hr : r.reads = s.reads ++ rs := hreads
      rw [forall_reachable_iff, hr, List.forall_mem_append, hsound]
      exact ⟨fun h ↦ ⟨h.1, h.2, fun q hq ↦ absurd hq (hend q)⟩, fun h ↦ ⟨h.1, h.2.1⟩⟩
  | @turn s s' r hs hr ih =>
      obtain ⟨rs, hreads, hsound, hnext⟩ := @noteTurn_reads seg mem s hbase hstop
      rw [hs] at hreads hnext
      have hfollows : seg.Follows mem s.p s'.p := (hnext s'.p).mpr ⟨s'.reads, rfl⟩
      have hone (q : UInt64) (hq : seg.Follows mem s.p q) : q = s'.p := by
        obtain ⟨_, hq⟩ := (hnext q).mp hq
        cases hq
        rfl
      have hs' : s'.reads = s.reads ++ rs := hreads
      have hbase' : seg.base ≤ s'.p := by
        have hlt := mem.lt_nextAt s.p
        rw [UInt64.le_iff_toNat_le] at hbase ⊢
        have hq := hfollows.2.2
        omega
      have hstop' : s'.p ≤ seg.stop :=
        UInt64.le_iff_toNat_le.mpr (hfollows.2.2.trans_le hfollows.1)
      rw [ih hbase' hstop', forall_reachable_iff (C := seg.Sound mem) s.p, hs',
        List.forall_mem_append, hsound, and_assoc]
      refine and_congr_right fun _ ↦ and_congr_right fun _ ↦ ⟨fun h q hq ↦ ?_, fun h ↦ ?_⟩
      · rwa [hone q hq]
      · exact h s'.p hfollows

end Segment

/-- **What the walk over the notes reads.**  The walk ends for every segment.  It reads nothing
outside of the segment if and only if every note that it comes to is sound. -/
theorem extractBuildId_contained_iff (mem : Memory) (seg : Segment) :
    Loop.Ends (noteTurn mem (seg.base + seg.size)) { p := seg.base }
        (extractBuildId mem seg.base seg.size) ∧
      ((∀ a ∈ (extractBuildId mem seg.base seg.size).reads, seg.Contains a) ↔
        ∀ p, seg.NoteAt mem p → seg.Sound mem p) := by
  have hends := Loop.ends_result (isSome_run_noteTurn mem (seg.base + seg.size) seg.base)
  refine ⟨hends, (Segment.contained_iff_of_ends hends (UInt64.le_refl _) seg.base_le_stop).trans ?_⟩
  exact and_iff_right (List.forall_mem_nil _)

/-- A segment that is one header long. -/
def oneHeader : Segment where
  base := 4096
  size := 12
  fits := by decide

/-- Its header announces a name of `2 ^ 32 - 1` bytes, which are rounded up to none. -/
def endlessName : Memory := fun a ↦
  (pack [(4, 2 ^ 32 - 1), (4, 0), (4, 3)]).getD (a - oneHeader.base).toNat 0

/-- The name is compared behind the end of the segment. -/
theorem extractBuildId_endlessName : ¬ ∀ a ∈ (extractBuildId endlessName oneHeader.base
    oneHeader.size).reads, oneHeader.Contains a := by
  intro h
  have hends := Loop.ends_result
    (isSome_run_noteTurn endlessName oneHeader.stop oneHeader.base)
  have hsound := ((Segment.contained_iff_of_ends hends (UInt64.le_refl _)
    oneHeader.base_le_stop).mp h).2 oneHeader.base .refl
  have hname := hsound.name (by decide) ⟨by decide, by decide⟩ (by decide)
  exact absurd hname (by decide)

end DeadLockDetect.Runtime
