import DeadLockDetect.Runtime.RingInv

/-!
# What each access does to the ring

One lemma for each kind of access to the shared memory: a byte written in front of
the producer, a counter loaded, a counter stored.  From these, `Producer.step_inv`
says what one step of the producer does (it may append segments, and it carries
`Producer.Inv` along), and `Inv.consume` what the consumer's stores do (they drop the
first segment).
-/

namespace DeadLockDetect.Runtime

namespace ThreadRing.Inv

variable {r r' : ThreadRing} {v : Virtual} {i : Nat}

/-- A byte written in front of the producer. -/
theorem write (h : r.Inv v) {d : Nat} (b : UInt8)
    (hfit : v.head.latest % r.capacity.toNat + d < r.capacity.toNat)
    (hroom : v.head.latest + d < v.tail.seen + r.capacity.toNat) :
    (r.write (v.head.latest % r.capacity.toNat + d) b).Inv v := by
  have hend := h.end_eq
  have hseen := h.tail_mono.seen_le_latest
  refine { h with layout := ?_ }
  rw [← add_mod_of_fits hfit]
  exact h.layout.write b (by omega) (by omega)

/-- The producer loads `tail_`. -/
theorem loadTail (h : r.Inv v) (hl : r.loadTail i = some r') :
    ∃ t, r' = { r with tail := t.map UInt64.ofNat } ∧ r'.Inv { v with tail := t } ∧
      t.latest = v.tail.latest ∧ v.tail.seen ≤ t.seen := by
  obtain ⟨c, hc, rfl⟩ := Option.map_eq_some_iff.mp hl
  rw [h.tail_eq] at hc
  obtain ⟨t, ht, rfl⟩ := Cell.load_map hc
  have hlatest := Cell.latest_load ht
  have hseen := h.tail_mono.seen_le_load ht
  have hroom := h.room
  refine ⟨t, rfl, ?_, hlatest, hseen⟩
  exact
    { pow := h.pow
      head_eq := h.head_eq
      tail_eq := rfl
      head_mono := h.head_mono
      tail_mono := h.tail_mono.load ht
      boundary := hlatest ▸ h.boundary
      end_eq := hlatest ▸ h.end_eq
      room := by
        show v.head.latest ≤ t.seen + r.capacity.toNat
        omega
      layout := hlatest ▸ h.layout }

/-- The producer publishes segments that it has written. -/
theorem storeHead (h : r.Inv v) {new : List Seg} (hfit : Fits r v (span new))
    (hl : Layout r.capacity.toNat r.buf v.head.latest new) :
    (r.storeHead (UInt64.ofNat (v.head.latest + span new))).Inv
      { v with head := v.head.store (v.head.latest + span new), segs := v.segs ++ new } := by
  have hend := h.end_eq
  refine
    { pow := h.pow
      head_eq := ?_
      tail_eq := h.tail_eq
      head_mono := h.head_mono.store (Nat.le_add_right _ _)
      tail_mono := h.tail_mono
      boundary := fun x hx ↦ ?_
      end_eq := ?_
      room := ?_
      layout := h.layout.append (hend ▸ hl) }
  · show r.head.store _ = _
    rw [Cell.map_store, ← h.head_eq]
  · rcases Cell.mem_values_store.mp hx with hx | rfl
    · obtain ⟨pre, hpre, he⟩ := h.boundary x hx
      exact ⟨pre, hpre.trans (List.prefix_append _ _), he⟩
    · refine ⟨v.segs ++ new, List.prefix_refl _, ?_⟩
      dsimp only
      rw [span_append]
      omega
  · dsimp only
    rw [Cell.latest_store, span_append]
    omega
  · dsimp only
    rw [Cell.latest_store]
    exact hfit.2

/-- The consumer loads `head_`. -/
theorem loadHead (h : r.Inv v) (hl : r.loadHead i = some r') :
    ∃ c, r' = { r with head := c.map UInt64.ofNat } ∧ r'.Inv { v with head := c } ∧
      c.latest = v.head.latest ∧ v.head.seen ≤ c.seen := by
  obtain ⟨d, hd, rfl⟩ := Option.map_eq_some_iff.mp hl
  rw [h.head_eq] at hd
  obtain ⟨c, hc, rfl⟩ := Cell.load_map hd
  have hlatest := Cell.latest_load hc
  refine ⟨c, rfl, ?_, hlatest, h.head_mono.seen_le_load hc⟩
  exact
    { pow := h.pow
      head_eq := rfl
      tail_eq := h.tail_eq
      head_mono := h.head_mono.load hc
      tail_mono := h.tail_mono
      boundary := fun x hx ↦ h.boundary x (Cell.mem_of_mem_load hc hx)
      end_eq := by
        rw [hlatest]
        exact h.end_eq
      room := by
        rw [hlatest]
        exact h.room
      layout := h.layout }

/-- The consumer moves past the first segment, which it has seen. -/
theorem storeTail (h : r.Inv v) {x : Seg} {rest : List Seg} (hs : v.segs = x :: rest)
    (hr : v.tail.latest < v.head.seen) :
    (r.storeTail (UInt64.ofNat (v.tail.latest + x.size))).Inv
      { v with tail := v.tail.store (v.tail.latest + x.size), segs := rest } := by
  have hend := h.end_eq
  have hl := h.layout
  rw [hs] at hl
  rw [hs, span_cons] at hend
  refine
    { pow := h.pow
      head_eq := h.head_eq
      tail_eq := ?_
      head_mono := h.head_mono
      tail_mono := h.tail_mono.store (Nat.le_add_right _ _)
      boundary := fun y hy ↦ ?_
      end_eq := ?_
      room := h.room
      layout := ?_ }
  · show r.tail.store _ = _
    rw [Cell.map_store, ← h.tail_eq]
  · -- `y` is not the old position of the consumer, so its segments begin with `x`
    have hy' : v.head.seen ≤ y := h.head_mono.seen_le hy
    obtain ⟨pre, ⟨suf, hpre⟩, he⟩ := h.boundary y hy
    cases pre with
    | nil =>
        rw [span_nil] at he
        omega
    | cons x' pre =>
        rw [hs] at hpre
        obtain ⟨rfl, hrest⟩ := List.cons.inj hpre
        refine ⟨pre, ⟨suf, hrest⟩, ?_⟩
        rw [span_cons] at he
        dsimp only
        rw [Cell.latest_store]
        omega
  · dsimp only
    rw [Cell.latest_store]
    omega
  · dsimp only
    rw [Cell.latest_store]
    exact hl.2.2

/-- `skip_padding` drops a byte of padding. -/
theorem skipPadding (h : r.Inv v) {rest : List Seg} (hs : v.segs = .skip :: rest)
    (hr : v.tail.latest < v.head.seen) :
    r.skipPadding.Inv { v with tail := v.tail.store (v.tail.latest + 1), segs := rest } := by
  have e : UInt64.ofNat (v.tail.latest + 1) = r.tail.latest + 1 := by
    rw [UInt64.ofNat_add, h.tail_latest_eq]
    rfl
  rw [ThreadRing.skipPadding, ← e]
  exact h.storeTail hs hr

/-- `consume_event` drops an event, if it is told the size of its payload. -/
theorem consumeEvent (h : r.Inv v) {p : List UInt8} {rest : List Seg}
    (hs : v.segs = .event p :: rest) (hr : v.tail.latest < v.head.seen) :
    (r.consumeEvent (UInt64.ofNat p.length)).Inv
      { v with tail := v.tail.store (v.tail.latest + (1 + p.length)), segs := rest } := by
  have e : UInt64.ofNat (v.tail.latest + (1 + p.length)) =
      r.tail.latest + 1 + UInt64.ofNat p.length := by
    rw [← Nat.add_assoc, UInt64.ofNat_add, UInt64.ofNat_add, h.tail_latest_eq]
    rfl
  rw [ThreadRing.consumeEvent, ← e, ← Seg.size_event]
  exact h.storeTail hs hr

/-- The consumer synchronises with the producer. -/
theorem sync (h : r.Inv v) :
    ThreadRing.Inv { r with head := r.head.sync } { v with head := v.head.sync } :=
  { pow := h.pow
    head_eq := by
      show r.head.sync = _
      rw [h.head_eq, Cell.sync_map]
    tail_eq := h.tail_eq
    head_mono := Cell.Mono.sync v.head
    tail_mono := h.tail_mono
    boundary := fun x hx ↦ h.boundary x (by
      rw [List.mem_singleton.mp hx]
      exact v.head.latest_mem)
    end_eq := h.end_eq
    room := h.room
    layout := h.layout }

end ThreadRing.Inv

/-! ## The producer -/

/-- What the producer knows. -/
def Producer.Inv (r : ThreadRing) (v : Virtual) (payload : List UInt8) : Producer → Prop
  | .idle => True
  | .loadTail h => h = UInt64.ofNat v.head.latest
  | .pad h off padNeed n =>
      h = UInt64.ofNat v.head.latest ∧ off.toNat = v.head.latest % r.capacity.toNat ∧
        padNeed.toNat = r.capacity.toNat - v.head.latest % r.capacity.toNat ∧
        Fits r v padNeed.toNat ∧
        ∀ j < n, r.buf (v.head.latest % r.capacity.toNat + j) = kTagSkip
  | .storePad h => ∃ n, h = UInt64.ofNat (v.head.latest + n) ∧
      v.head.latest % r.capacity.toNat + n = r.capacity.toNat ∧ Fits r v n ∧
      ∀ j < n, r.buf (v.head.latest % r.capacity.toNat + j) = kTagSkip
  | .reloadTail h => h = UInt64.ofNat v.head.latest ∧ v.head.latest % r.capacity.toNat = 0
  | .writeTag off =>
      off.toNat = v.head.latest % r.capacity.toNat ∧ Fits r v (1 + payload.length)
  | .fill off n =>
      off.toNat = v.head.latest % r.capacity.toNat ∧ Fits r v (1 + payload.length) ∧
        r.pendingPayloadSize = UInt64.ofNat payload.length ∧
        r.buf (v.head.latest % r.capacity.toNat) = kTagEvent ∧
        ∀ j < n, ∀ b, payload[j]? = some b →
          r.buf (v.head.latest % r.capacity.toNat + 1 + j) = b
  | .publish h =>
      h = UInt64.ofNat (v.head.latest + (1 + payload.length)) ∧
        Fits r v (1 + payload.length) ∧
        r.buf (v.head.latest % r.capacity.toNat) = kTagEvent ∧
        ∀ j b, payload[j]? = some b → r.buf (v.head.latest % r.capacity.toNat + 1 + j) = b

/-- What a step of the producer does to the stream: it appends segments. -/
structure Produced (v v' : Virtual) (new : List Seg) : Prop where
  head_seen : v'.head.seen = v.head.seen
  tail_latest : v'.tail.latest = v.tail.latest
  segs : v'.segs = v.segs ++ new

/-- A step that publishes nothing. -/
theorem Produced.nil {v v' : Virtual} (hh : v'.head = v.head) (ht : v'.tail.latest = v.tail.latest)
    (hs : v'.segs = v.segs) : Produced v v' [] :=
  ⟨by rw [hh], ht, by rw [hs, List.append_nil]⟩

/-- What a step of the consumer leaves alone: all that the producer relies on. -/
structure Consumed (r r' : ThreadRing) (v v' : Virtual) : Prop where
  capacity : r'.capacity = r.capacity
  buf : r'.buf = r.buf
  pending : r'.pendingPayloadSize = r.pendingPayloadSize
  head_latest : v'.head.latest = v.head.latest
  tail_seen : v'.tail.seen = v.tail.seen

namespace Producer

variable {r r' : ThreadRing} {v v' : Virtual} {payload : List UInt8} {p p' : Producer} {i : Nat}

/-- The consumer changes nothing that the producer relies on. -/
theorem Inv.consumed (hp : p.Inv r v payload) (h : Consumed r r' v v') : p.Inv r' v' payload := by
  have hfits : ∀ n, Fits r' v' n ↔ Fits r v n := fun n ↦ by
    rw [Fits, Fits, h.capacity, h.head_latest, h.tail_seen]
  cases p
  case idle => trivial
  all_goals simpa only [Inv, hfits, h.capacity, h.buf, h.pending, h.head_latest] using hp

theorem toNat_need (hlen : payload.length < 2 ^ 63) : (need payload).toNat = 1 + payload.length := by
  rw [need, UInt64.toNat_add, UInt64.toNat_ofNat', UInt64.toNat_one]
  omega

theorem toNat_freeBytes (h : r.Inv v) :
    (freeBytes r (UInt64.ofNat v.head.latest)).toNat =
      r.capacity.toNat - (v.head.latest - v.tail.seen) := by
  have hroom := h.room
  have hused := h.toNat_head_sub_tail_seen
  rw [h.head_latest_eq] at hused
  rw [freeBytes, UInt64.toNat_sub_of_le _ _ (by rw [UInt64.le_iff_toNat_le, hused]; omega), hused]

theorem toNat_toEnd (h : r.Inv v) :
    (r.capacity - (UInt64.ofNat v.head.latest &&& r.mask)).toNat =
      r.capacity.toNat - v.head.latest % r.capacity.toNat := by
  have hoff := h.toNat_and_mask v.head.latest
  have hlt := Nat.mod_lt v.head.latest h.capacity_pos
  rw [UInt64.toNat_sub_of_le _ _ (by rw [UInt64.le_iff_toNat_le, hoff]; omega), hoff]

/-- The block that `reserve` returns lies in front of the producer. -/
theorem place_inv (h : r.Inv v) (hlen : payload.length < 2 ^ 63) {off : UInt64}
    (hoff : off.toNat = v.head.latest % r.capacity.toNat)
    (hend : 1 + payload.length ≤ r.capacity.toNat →
      off.toNat + (1 + payload.length) ≤ r.capacity.toNat) :
    (place r payload (UInt64.ofNat v.head.latest) off).Inv r v payload := by
  have hroom := h.room
  unfold place
  split
  · trivial
  · rename_i hfree
    rw [UInt64.lt_iff_toNat_lt, toNat_freeBytes h, toNat_need hlen] at hfree
    have hend' := hend (by omega)
    exact ⟨hoff, by omega, by omega⟩

/-- The padding fills the buffer up to its end. -/
theorem plan_inv (h : r.Inv v) (hlen : payload.length < 2 ^ 63) :
    (plan r payload (UInt64.ofNat v.head.latest)).Inv r v payload := by
  have hcap := h.capacity_le
  have hroom := h.room
  have hneed := toNat_need hlen
  have hfree := toNat_freeBytes h
  have hend := toNat_toEnd h
  have hoff := h.toNat_and_mask v.head.latest
  have hlt := Nat.mod_lt v.head.latest h.capacity_pos
  unfold plan
  dsimp only
  split
  · rename_i hpad
    rw [UInt64.lt_iff_toNat_lt, hend, hneed] at hpad
    split
    · trivial
    · rename_i hfull
      have hsum : (r.capacity - (UInt64.ofNat v.head.latest &&& r.mask) + need payload).toNat =
          r.capacity.toNat - v.head.latest % r.capacity.toNat + (1 + payload.length) := by
        rw [UInt64.toNat_add, hend, hneed, Nat.mod_eq_of_lt (by omega)]
      rw [UInt64.lt_iff_toNat_lt, hfree, hsum] at hfull
      refine ⟨rfl, hoff, hend, ?_, fun j hj ↦ absurd hj (Nat.not_lt_zero j)⟩
      rw [hend]
      exact ⟨by omega, by omega⟩
  · rename_i hfit
    rw [UInt64.lt_iff_toNat_lt, hend, hneed] at hfit
    exact place_inv h hlen hoff fun _ ↦ by omega

/-- One step of the producer. -/
theorem step_inv (h : r.Inv v) (hp : p.Inv r v payload) (hlen : payload.length < 2 ^ 63)
    (hs : p.step r payload i = some (r', p')) :
    ∃ v' new, r'.Inv v' ∧ p'.Inv r' v' payload ∧ Produced v v' new ∧
      events new = if p.commits then [payload] else [] := by
  cases p with
  | idle =>
      cases hs
      exact ⟨v, [], h, h.head_latest_eq, .nil rfl rfl rfl, rfl⟩
  | loadTail c =>
      obtain ⟨r₁, hl, he⟩ := Option.map_eq_some_iff.mp hs
      cases he
      obtain rfl : c = UInt64.ofNat v.head.latest := hp
      obtain ⟨t, -, hi, ht, -⟩ := h.loadTail hl
      exact ⟨{ v with tail := t }, [], hi, plan_inv hi hlen, .nil rfl ht rfl, rfl⟩
  | pad c off padNeed n =>
      obtain ⟨hc, hoff, hpad, hfit, hskip⟩ := hp
      rw [step] at hs
      split at hs
      · rename_i hn
        cases hs
        rw [hpad] at hfit hn
        rw [hoff]
        have hw := h.write kTagSkip (d := n) (by omega) (by have := hfit.2; omega)
        refine ⟨v, [], hw, ⟨hc, hoff, hpad, by rw [hpad]; exact hfit, fun j hj ↦ ?_⟩,
          .nil rfl rfl rfl, rfl⟩
        rw [ThreadRing.write_capacity]
        rcases Nat.lt_succ_iff_lt_or_eq.mp hj with hj | rfl
        · rw [r.write_of_ne (by omega)]
          exact hskip j hj
        · exact r.write_self _ _
      · rename_i hn
        cases hs
        have hlt := Nat.mod_lt v.head.latest h.capacity_pos
        refine ⟨v, [], h, ⟨padNeed.toNat, ?_, ?_, hfit, fun j hj ↦ hskip j (by omega)⟩,
          .nil rfl rfl rfl, rfl⟩
        · rw [UInt64.ofNat_add, UInt64.ofNat_toNat, hc]
        · omega
  | storePad c =>
      obtain ⟨n, rfl, hmod, hfit, hskip⟩ := hp
      cases hs
      have hl : Layout r.capacity.toNat r.buf v.head.latest (List.replicate n .skip) :=
        layout_skips hmod.le hskip
      have hspan : Fits r v (span (List.replicate n .skip)) := by
        rw [span_replicate_skip]
        exact hfit
      have hi := h.storeHead hspan hl
      rw [span_replicate_skip] at hi
      refine ⟨_, _, hi, ⟨?_, ?_⟩, ⟨rfl, rfl, rfl⟩, events_replicate_skip n⟩
      · rw [Cell.latest_store]
      · show (v.head.store _).latest % r.capacity.toNat = 0
        rw [Cell.latest_store, ← Nat.mod_add_mod, hmod, Nat.mod_self]
  | reloadTail c =>
      obtain ⟨rfl, hmod⟩ := hp
      obtain ⟨r₁, hl, he⟩ := Option.map_eq_some_iff.mp hs
      cases he
      obtain ⟨t, rfl, hi, ht, -⟩ := h.loadTail hl
      refine ⟨{ v with tail := t }, [], hi, place_inv hi hlen hmod.symm fun hle ↦ ?_,
        .nil rfl ht rfl, rfl⟩
      rw [UInt64.toNat_zero]
      omega
  | writeTag off =>
      obtain ⟨hoff, hfit⟩ := hp
      cases hs
      have hw := h.write kTagEvent (d := 0) (by have := hfit.1; omega) (by have := hfit.2; omega)
      rw [Nat.add_zero, ← hoff] at hw
      refine ⟨v, [], { hw with }, ⟨hoff, hfit, rfl, ?_, fun j hj ↦ absurd hj (Nat.not_lt_zero j)⟩,
        .nil rfl rfl rfl, rfl⟩
      rw [hoff]
      exact r.write_self _ _
  | fill off n =>
      obtain ⟨hoff, hfit, hpend, htag, hbytes⟩ := hp
      rw [step] at hs
      split at hs
      · rename_i b hb
        cases hs
        have hn : n < payload.length := (List.getElem?_eq_some_iff.mp hb).1
        have hw := h.write b (d := 1 + n) (by have := hfit.1; omega) (by have := hfit.2; omega)
        rw [← Nat.add_assoc] at hw
        rw [hoff]
        refine ⟨v, [], hw, ⟨hoff, hfit, hpend, ?_, fun j hj c hc ↦ ?_⟩, .nil rfl rfl rfl, rfl⟩
        · rw [ThreadRing.write_capacity, r.write_of_ne (by omega)]
          exact htag
        · rw [ThreadRing.write_capacity]
          rcases Nat.lt_succ_iff_lt_or_eq.mp hj with hj | rfl
          · rw [r.write_of_ne (by omega)]
            exact hbytes j hj c hc
          · rw [hb] at hc
            cases hc
            exact r.write_self _ _
      · rename_i hnone
        cases hs
        have hn := List.getElem?_eq_none_iff.mp hnone
        refine ⟨v, [], h, ⟨?_, hfit, htag, fun j b hb ↦ ?_⟩, .nil rfl rfl rfl, rfl⟩
        · rw [h.head_latest_eq, hpend, UInt64.ofNat_add, UInt64.ofNat_add]
          rfl
        · have hj : j < payload.length := (List.getElem?_eq_some_iff.mp hb).1
          exact hbytes j (by omega) b hb
  | publish c =>
      obtain ⟨rfl, hfit, htag, hbytes⟩ := hp
      cases hs
      have hl : Layout r.capacity.toNat r.buf v.head.latest [.event payload] :=
        layout_event (by have := hfit.1; omega) htag hbytes
      have hspan : span [.event payload] = 1 + payload.length := by
        rw [span_cons, span_nil, Seg.size_event, Nat.add_zero]
      have hi := h.storeHead (by rw [hspan]; exact hfit) hl
      rw [hspan] at hi
      exact ⟨_, _, { hi with }, trivial, ⟨rfl, rfl, rfl⟩, rfl⟩

theorem capacity_step (hs : p.step r payload i = some (r', p')) : r'.capacity = r.capacity := by
  cases p with
  | loadTail c | reloadTail c =>
      obtain ⟨r₁, hl, he⟩ := Option.map_eq_some_iff.mp hs
      obtain ⟨d, -, rfl⟩ := Option.map_eq_some_iff.mp hl
      cases he
      rfl
  | pad c off padNeed n =>
      rw [step] at hs
      split at hs <;> cases hs <;> rfl
  | fill off n =>
      rw [step] at hs
      split at hs <;> cases hs <;> rfl
  | _ =>
      cases hs
      rfl

/-- After `commit` the producer is free. -/
theorem eq_idle_of_commits (hc : p.commits = true) (hs : p.step r payload i = some (r', p')) :
    p' = .idle := by
  cases p with
  | publish c =>
      cases hs
      rfl
  | _ => cases hc

/-- The producer writes in front of itself. -/
theorem fits_block (hp : p.Inv r v payload) {off n : Nat} (hb : p.block payload = some (off, n)) :
    off = v.head.latest % r.capacity.toNat ∧ Fits r v n := by
  cases p with
  | pad c off padNeed m =>
      cases hb
      exact ⟨hp.2.1, hp.2.2.2.1⟩
  | writeTag off =>
      cases hb
      exact hp
  | fill off m =>
      cases hb
      exact ⟨hp.1, hp.2.1⟩
  | _ => cases hb

/-- What the producer writes lies inside the buffer and overlaps no byte that is still to
be consumed. -/
theorem block_disjoint (h : r.Inv v) (hp : p.Inv r v payload) {off n : Nat}
    (hb : p.block payload = some (off, n)) :
    off + n ≤ r.capacity.toNat ∧ ∀ d < (r.head.latest - r.tail.latest).toNat, ∀ e < n,
      ((r.tail.latest + UInt64.ofNat d) &&& r.mask).toNat ≠ off + e := by
  obtain ⟨rfl, hend, hroom⟩ := fits_block hp hb
  refine ⟨hend, fun d hd e he ↦ ?_⟩
  rw [h.toNat_head_sub_tail] at hd
  have hlast := h.end_eq
  have hseen := h.tail_mono.seen_le_latest
  rw [h.toNat_position, ← add_mod_of_fits (by omega)]
  exact mod_ne_mod (by omega) (by omega)

end Producer

end DeadLockDetect.Runtime
