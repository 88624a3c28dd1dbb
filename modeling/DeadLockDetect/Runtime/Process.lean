import DeadLockDetect.Runtime.Backend
import DeadLockDetect.Runtime.RingStep

/-!
# One call of `process_one_event`

What the backend knows at each point of `process_one_event`, and what the call does to
the ring: it drops padding, and it drops the first event after copying it.  The
branches for an event that is not complete and for one with too many frames are never
entered, since the producer publishes an event in one piece.

`Virtual.Sees v n` says that the values of `head_` loaded so far cover `n` events of the
ring.  When a call returns `false` it has seen the ring empty, so no event that was
covered is left.
-/

namespace DeadLockDetect.Runtime

/-! ## Events in sight -/

/-- The consumer has seen at least `n` events of the ring. -/
def Virtual.Sees (v : Virtual) (n : Nat) : Prop :=
  ∃ pre, pre <+: v.segs ∧ v.head.seen = v.tail.latest + span pre ∧ n ≤ (events pre).length

/-- Of two prefixes the one that spans less is the shorter one. -/
theorem prefix_of_span_le {l m segs : List Seg} (hl : l <+: segs) (hm : m <+: segs)
    (h : span l ≤ span m) : l <+: m := by
  rcases List.prefix_or_prefix_of_prefix hl hm with hlm | ⟨suf, rfl⟩
  · exact hlm
  · rw [span_append] at h
    have hsuf : suf = [] := eq_nil_of_span_eq_zero (by omega)
    exact ⟨[], by rw [hsuf, List.append_nil, List.append_nil]⟩

theorem length_events_le {l m : List Seg} (h : l <+: m) :
    (events l).length ≤ (events m).length := by
  obtain ⟨suf, rfl⟩ := h
  rw [events_append, List.length_append]
  exact Nat.le_add_right _ _

namespace Virtual.Sees

variable {v v' : Virtual} {n : Nat}

theorem init : Virtual.init.Sees 0 := ⟨[], List.prefix_refl _, rfl, Nat.le_refl 0⟩

/-- What the producer appends does not matter. -/
theorem produced {new : List Seg} (h : v.Sees n) (hp : Produced v v' new) : v'.Sees n := by
  obtain ⟨pre, hpre, he, hn⟩ := h
  refine ⟨pre, ?_, by rw [hp.head_seen, hp.tail_latest]; exact he, hn⟩
  rw [hp.segs]
  exact hpre.trans (List.prefix_append _ _)

/-- Seeing a later value of `head_`. -/
theorem mono {c : Cell Nat} (h : v.Sees n) {pre : List Seg} (hpre : pre <+: v.segs)
    (he : c.seen = v.tail.latest + span pre) (hle : v.head.seen ≤ c.seen) :
    Virtual.Sees { v with head := c } n := by
  obtain ⟨pre₀, hpre₀, he₀, hn⟩ := h
  have hp : pre₀ <+: pre := prefix_of_span_le hpre₀ hpre (by omega)
  exact ⟨pre, hpre, he, hn.trans (length_events_le hp)⟩

/-- The first segment is dropped. -/
theorem drop (h : v.Sees n) {x : Seg} {rest : List Seg} (hs : v.segs = x :: rest)
    (hr : v.tail.latest < v.head.seen) :
    Virtual.Sees { v with tail := v.tail.store (v.tail.latest + x.size), segs := rest }
      (n - x.payload?.toList.length) := by
  obtain ⟨pre, ⟨suf, hpre⟩, he, hn⟩ := h
  cases pre with
  | nil =>
      rw [span_nil] at he
      omega
  | cons y pre =>
      rw [hs] at hpre
      obtain ⟨rfl, hrest⟩ := List.cons.inj hpre
      refine ⟨pre, ⟨suf, hrest⟩, ?_, ?_⟩
      · rw [span_cons] at he
        show v.head.seen = (v.tail.store _).latest + span pre
        rw [Cell.latest_store]
        omega
      · have hlen : (events (y :: pre)).length = y.payload?.toList.length + (events pre).length := by
          cases y with
          | skip => exact (Nat.zero_add _).symm
          | event p => exact Nat.add_comm _ 1
        omega

/-- An empty ring has no event in sight. -/
theorem eq_zero (h : v.Sees n) (he : v.head.seen = v.tail.latest) : n = 0 := by
  obtain ⟨pre, -, hpre, hn⟩ := h
  rw [(eq_nil_of_span_eq_zero (by omega) : pre = [])] at hn
  exact Nat.le_zero.mp hn

end Virtual.Sees

/-! ## The call -/

/-- The next segment is an event, and it is readable. -/
def Virtual.AtEvent (v : Virtual) (e : LogEvent) : Prop :=
  v.tail.latest < v.head.seen ∧ ∃ rest, v.segs = .event e.encode :: rest

theorem Virtual.AtEvent.mono {v : Virtual} {e : LogEvent} {c : Cell Nat} (h : v.AtEvent e)
    (hle : v.head.seen ≤ c.seen) : Virtual.AtEvent { v with head := c } e :=
  ⟨Nat.lt_of_lt_of_le h.1 hle, h.2⟩

/-- What the backend knows; `drained` holds when no event in sight is left. -/
def Process.Inv (v : Virtual) (drained : Prop) : Process → Prop
  | .skip => True
  | .skipPad => v.tail.latest < v.head.seen ∧ ∃ rest, v.segs = .skip :: rest
  | .peek => drained ∨ ∃ e, v.AtEvent e
  | .header => ∃ e, v.AtEvent e
  | .shortHeader => False
  | .body hdr => ∃ e, v.AtEvent e ∧ hdr = e.hdr
  | .shortBody => False
  | .corrupt _ => False
  | .consume hdr pcs => ∃ e, v.AtEvent e ∧ hdr = e.hdr ∧ pcs = e.pcs
  | .write _ => True
  | .done true => True
  | .done false => drained

/-- The record that was consumed and is about to be written. -/
def Process.inFlight : Process → List Record
  | .write out => [out]
  | _ => []

namespace ThreadRing.Inv

variable {r r' : ThreadRing} {v : Virtual} {pend : List LogEvent} {i n : Nat}

/-- A load of `head_` by the backend. -/
theorem loadHead_sees (h : r.Inv v) (hsee : v.Sees n) (hl : r.loadHead i = some r') :
    ∃ c, r'.Inv { v with head := c } ∧ Consumed r r' v { v with head := c } ∧
      v.head.seen ≤ c.seen ∧ Virtual.Sees { v with head := c } n := by
  obtain ⟨c, rfl, hi, hlatest, hle⟩ := h.loadHead hl
  obtain ⟨pre, hpre, he⟩ := hi.boundary c.seen c.seen_mem
  exact ⟨c, hi, ⟨rfl, rfl, rfl, hlatest, rfl⟩, hle, hsee.mono hpre he hle⟩

/-- If something is readable, the first segment is an event or padding. -/
theorem atEvent_or (h : r.Inv v) (hev : events v.segs = pend.map LogEvent.encode)
    (hr : r.readable ≠ 0) :
    (r.tagByte = kTagSkip ∧ v.tail.latest < v.head.seen ∧ ∃ rest, v.segs = .skip :: rest) ∨
      (r.tagByte = kTagEvent ∧ ∃ e, v.AtEvent e) := by
  have hle := h.tail_le_head_seen
  have hne : v.head.seen ≠ v.tail.latest := fun e ↦ hr (h.readable_eq_zero_iff.mpr e)
  have hlt : v.tail.latest < v.head.seen := by omega
  obtain ⟨x, rest, hs, -⟩ := h.exists_segs_eq_cons hlt
  have htag := h.tagByte_eq hs
  cases x with
  | skip => exact Or.inl ⟨htag, hlt, rest, hs⟩
  | event p =>
      rw [hs] at hev
      obtain ⟨e, pend', -, rfl, -⟩ := List.map_eq_cons_iff.mp hev.symm
      exact Or.inr ⟨htag, e, hlt, rest, hs⟩

/-- An event is readable as a whole. -/
theorem le_readable (h : r.Inv v) {e : LogEvent} (he : v.AtEvent e) :
    1 + e.encode.length ≤ r.readable.toNat := by
  obtain ⟨hlt, rest, hs⟩ := he
  obtain ⟨x, rest', hs', hle⟩ := h.exists_segs_eq_cons hlt
  rw [hs] at hs'
  obtain ⟨rfl, -⟩ := List.cons.inj hs'
  rw [Seg.size_event] at hle
  rw [h.toNat_readable]
  omega

end ThreadRing.Inv

/-- What a step of `process_one_event` does to the ring: nothing to its events, or it takes
the first one. -/
def Process.Took (pend pend' : List LogEvent) (p' : Process) : Prop :=
  pend' = pend ∧ p'.inFlight = [] ∨ ∃ e, pend = e :: pend' ∧ p' = .write e.record

namespace Process

variable {r r' : ThreadRing} {v : Virtual} {pend : List LogEvent} {p p' : Process} {i n : Nat}
  {drained : Prop}

/-- What the producer appends does not matter to the backend. -/
theorem Inv.produced {v' : Virtual} {new : List Seg} (h : p.Inv v drained)
    (hp : Produced v v' new) : p.Inv v' drained := by
  have hat {e : LogEvent} (he : v.AtEvent e) : v'.AtEvent e := by
    obtain ⟨hlt, rest, hs⟩ := he
    refine ⟨by rw [hp.head_seen, hp.tail_latest]; exact hlt, rest ++ new, ?_⟩
    rw [hp.segs, hs]
    rfl
  cases p with
  | skipPad =>
      obtain ⟨hlt, rest, hs⟩ := h
      refine ⟨by rw [hp.head_seen, hp.tail_latest]; exact hlt, rest ++ new, ?_⟩
      rw [hp.segs, hs]
      rfl
  | peek => exact h.imp id fun ⟨e, he⟩ ↦ ⟨e, hat he⟩
  | header => exact h.imp fun e he ↦ hat he
  | body hdr => exact h.imp fun e he ↦ ⟨hat he.1, he.2⟩
  | consume hdr pcs => exact h.imp fun e he ↦ ⟨hat he.1, he.2⟩
  | done res => cases res <;> exact h
  | skip | write out => trivial
  | shortHeader | shortBody | corrupt hdr => exact h

/-- A ring that is drained stays so. -/
theorem Inv.mono {drained' : Prop} (h : p.Inv v drained) (hd : drained → drained') :
    p.Inv v drained' := by
  cases p with
  | peek => exact h.imp hd id
  | done res =>
      cases res with
      | false => exact hd h
      | true => trivial
  | _ => exact h

/-- One step of `process_one_event`.  `n` events are in sight, and `drained` holds when there
is none. -/
theorem step_inv (h : r.Inv v) (hev : events v.segs = pend.map LogEvent.encode)
    (hsee : v.Sees n) (hdrained : n = 0 → drained) (hp : p.Inv v drained)
    (hs : p.step r i = some (r', p')) :
    ∃ v' pend', r'.Inv v' ∧ Consumed r r' v v' ∧ events v'.segs = pend'.map LogEvent.encode ∧
      v'.Sees (n - p'.inFlight.length) ∧ p'.Inv v' drained ∧ Took pend pend' p' := by
  cases p with
  | skip =>
      obtain ⟨r₁, hl, he⟩ := Option.map_eq_some_iff.mp hs
      cases he
      obtain ⟨c, hi, hcons, -, hsee'⟩ := h.loadHead_sees hsee hl
      refine ⟨{ v with head := c }, pend, hi, hcons, hev, ?_, ?_, ?_⟩
      all_goals split
      · exact hsee'
      · exact hsee'
      · rename_i hc
        rcases hi.atEvent_or hev hc.1 with ⟨-, hlt, hrest⟩ | ⟨htag, -⟩
        · exact ⟨hlt, hrest⟩
        · rw [hc.2] at htag
          cases htag
      · rename_i hc
        by_cases hr : r'.readable = 0
        · exact Or.inl (hdrained (hsee'.eq_zero (hi.readable_eq_zero_iff.mp hr)))
        · rcases hi.atEvent_or hev hr with ⟨htag, -⟩ | ⟨-, he⟩
          · exact absurd ⟨hr, htag⟩ hc
          · exact Or.inr he
      · exact Or.inl ⟨rfl, rfl⟩
      · exact Or.inl ⟨rfl, rfl⟩
  | skipPad =>
      obtain ⟨hlt, rest, hrest⟩ := hp
      cases hs
      refine ⟨_, pend, h.skipPadding hrest hlt, ⟨rfl, rfl, rfl, rfl, rfl⟩, ?_,
        hsee.drop hrest hlt, trivial, Or.inl ⟨rfl, rfl⟩⟩
      rw [hrest] at hev
      exact hev
  | peek =>
      obtain ⟨r₁, hl, he⟩ := Option.map_eq_some_iff.mp hs
      cases he
      obtain ⟨c, hi, hcons, -, hsee'⟩ := h.loadHead_sees hsee hl
      have hd (hr : r'.readable = 0) : drained :=
        hdrained (hsee'.eq_zero (hi.readable_eq_zero_iff.mp hr))
      refine ⟨{ v with head := c }, pend, hi, hcons, hev, ?_⟩
      split
      · rename_i hr
        exact ⟨hsee', hd hr, Or.inl ⟨rfl, rfl⟩⟩
      · rename_i hr
        split
        · -- the front is padding, so it was not an event when the padding loop ended
          rename_i htag
          refine ⟨hsee', ?_, Or.inl ⟨rfl, rfl⟩⟩
          rcases hp with hd | ⟨e, -, rest, hrest⟩
          · exact hd
          · exact absurd (hi.tagByte_eq (v := { v with head := c }) hrest) htag
        · rename_i htag
          refine ⟨hsee', ?_, Or.inl ⟨rfl, rfl⟩⟩
          rcases hi.atEvent_or hev hr with ⟨hskip, -⟩ | ⟨-, he⟩
          · rw [hskip] at htag
            exact absurd (by decide) htag
          · exact he
  | header =>
      obtain ⟨e, hat⟩ := hp
      obtain ⟨r₁, hl, he⟩ := Option.map_eq_some_iff.mp hs
      cases he
      obtain ⟨c, hi, hcons, hle, hsee'⟩ := h.loadHead_sees hsee hl
      have hat' := hat.mono hle
      have hsize := hi.le_readable hat'
      have hlen := e.hdrSize_le
      rw [if_neg (by omega)]
      refine ⟨{ v with head := c }, pend, hi, hcons, hev, hsee', ⟨e, hat', ?_⟩,
        Or.inl ⟨rfl, rfl⟩⟩
      obtain ⟨-, rest, hrest⟩ := hat'
      rw [hi.peekPayload_eq hrest hlen, e.ofBytes_encode]
  | body hdr =>
      obtain ⟨e, hat, rfl⟩ := hp
      obtain ⟨r₁, hl, he⟩ := Option.map_eq_some_iff.mp hs
      cases he
      obtain ⟨c, hi, hcons, hle, hsee'⟩ := h.loadHead_sees hsee hl
      have hat' := hat.mono hle
      have hsize := hi.le_readable hat'
      have hpay := e.payloadSize_hdr
      have hcnt := e.frameCnt_hdr
      have hpcs := e.pcs_le
      rw [if_neg (by omega), if_neg (by rw [kMaxFrames]; omega)]
      refine ⟨{ v with head := c }, pend, hi, hcons, hev, hsee', ⟨e, hat', rfl, ?_⟩,
        Or.inl ⟨rfl, rfl⟩⟩
      obtain ⟨-, rest, hrest⟩ := hat'
      rw [hi.peekPayload_eq hrest (by omega), hpay, List.take_length, e.pcs_encode]
  | consume hdr pcs =>
      obtain ⟨e, ⟨hlt, rest, hrest⟩, rfl, rfl⟩ := hp
      cases hs
      rw [hrest] at hev
      obtain ⟨e', pend', rfl, he', hev'⟩ := List.map_eq_cons_iff.mp hev.symm
      have hrec : e.record = e'.record := LogEvent.record_eq_of_encode_eq he'.symm
      have hi := h.consumeEvent hrest hlt
      rw [← e.payloadSize_hdr] at hi
      refine ⟨_, pend', hi, ⟨rfl, rfl, rfl, rfl, rfl⟩, hev'.symm, ?_, trivial,
        Or.inr ⟨e', rfl, congrArg Process.write hrec⟩⟩
      rw [e.payloadSize_hdr]
      have hd := hsee.drop hrest hlt
      rw [Seg.size_event] at hd
      exact hd
  | shortHeader | shortBody | corrupt hdr => exact hp.elim
  | write out | done res => cases hs

end Process

end DeadLockDetect.Runtime
