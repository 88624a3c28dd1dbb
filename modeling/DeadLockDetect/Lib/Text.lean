import Mathlib.Data.List.DropRight

/-!
# Lines of a text

A text file is read in text mode: every kind of line end becomes `'\n'`, and the text is
handed out line by line, each line with its line end.  A text that is written line by line
is read back as these lines, and so are the fields of a line that are separated by tabs.
-/

namespace DeadLockDetect.Text

/-- White space, as `str.isspace` has it. -/
def isSpace (c : Char) : Bool :=
  let n := c.toNat
  (9 ≤ n && n ≤ 13) || (0x1c ≤ n && n ≤ 0x20) || n == 0x85 || n == 0xa0 || n == 0x1680 ||
    (0x2000 ≤ n && n ≤ 0x200a) || n == 0x2028 || n == 0x2029 || n == 0x202f || n == 0x205f ||
    n == 0x3000

/-- A line without anything but white space. -/
def isBlank (line : List Char) : Bool := line.all isSpace

/-- A line without its line end, as `rstrip("\r\n")` gives it. -/
def chomp (line : List Char) : List Char := line.rdropWhile fun c ↦ c == '\r' || c == '\n'

/-- Every line end becomes `'\n'`. -/
def universalNewlines : List Char → List Char
  | [] => []
  | '\r' :: '\n' :: t => '\n' :: universalNewlines t
  | '\r' :: t => '\n' :: universalNewlines t
  | c :: t => c :: universalNewlines t

/-- The lines of a text that starts with the line `acc`. -/
def linesFrom (acc : List Char) : List Char → List (List Char)
  | [] => if acc = [] then [] else [acc]
  | c :: t => if c = '\n' then (acc ++ [c]) :: linesFrom [] t else linesFrom (acc ++ [c]) t

/-- The lines of a text, with their line ends. -/
def lines (t : List Char) : List (List Char) := linesFrom [] t

/-- The lines that a text file is read as. -/
def readLines (t : List Char) : List (List Char) := lines (universalNewlines t)

/-! ## Text that is written line by line -/

/-- The characters of a line that is written: no line end among them. -/
def OneLine (l : List Char) : Prop := '\n' ∉ l ∧ '\r' ∉ l

instance (l : List Char) : Decidable (OneLine l) := inferInstanceAs (Decidable (_ ∧ _))

theorem OneLine.append {l m : List Char} (hl : OneLine l) (hm : OneLine m) : OneLine (l ++ m) :=
  ⟨List.not_mem_append hl.1 hm.1, List.not_mem_append hl.2 hm.2⟩

/-- A line as it is written. -/
def line (l : List Char) : List Char := l ++ ['\n']

/-- Dropping the line end gives back the line. -/
theorem chomp_line {l : List Char} (hl : OneLine l) : chomp (line l) = l := by
  rw [chomp, line, List.rdropWhile_concat_pos _ _ _ (by rfl)]
  rw [List.rdropWhile_eq_self_iff]
  intro hne hlast
  have hmem : l.getLast hne ∈ l := List.getLast_mem hne
  rw [Bool.or_eq_true, beq_iff_eq, beq_iff_eq] at hlast
  rcases hlast with h | h
  · exact hl.2 (h ▸ hmem)
  · exact hl.1 (h ▸ hmem)

theorem universalNewlines_eq_self {t : List Char} (h : '\r' ∉ t) : universalNewlines t = t := by
  induction t with
  | nil => rfl
  | cons c t ih =>
      have hc : c ≠ '\r' := fun hc ↦ h (hc ▸ List.mem_cons_self)
      rw [universalNewlines, ih fun ht ↦ h (List.mem_cons_of_mem _ ht)]
      · exact fun _ hc' ↦ absurd hc' hc
      · exact hc

theorem linesFrom_line (acc : List Char) {l : List Char} (h : '\n' ∉ l) (t : List Char) :
    linesFrom acc (line l ++ t) = (acc ++ line l) :: lines t := by
  induction l generalizing acc with
  | nil => exact if_pos rfl
  | cons c l ih =>
      have hc : c ≠ '\n' := fun hc ↦ h (hc ▸ List.mem_cons_self)
      have hl : '\n' ∉ l := fun hl ↦ h (List.mem_cons_of_mem _ hl)
      calc linesFrom acc (line (c :: l) ++ t)
        _ = linesFrom (acc ++ [c]) (line l ++ t) := if_neg hc
        _ = (acc ++ [c] ++ line l) :: lines t := ih (acc ++ [c]) hl
        _ = (acc ++ line (c :: l)) :: lines t := by rw [List.append_assoc]; rfl

/-- A text that is written line by line is read as it is. -/
theorem universalNewlines_flatMap_line {ls : List (List Char)} (h : ∀ l ∈ ls, OneLine l) :
    universalNewlines (ls.flatMap line) = ls.flatMap line := by
  refine universalNewlines_eq_self fun hmem ↦ ?_
  obtain ⟨l, hl, hcr⟩ := List.mem_flatMap.mp hmem
  rcases List.mem_append.mp hcr with hcr | hcr
  · exact (h l hl).2 hcr
  · exact absurd hcr (by decide)

theorem lines_flatMap_line {ls : List (List Char)} (h : ∀ l ∈ ls, '\n' ∉ l) :
    lines (ls.flatMap line) = ls.map line := by
  induction ls with
  | nil => rfl
  | cons l ls ih =>
      rw [List.flatMap_cons, lines, linesFrom_line [] (h l List.mem_cons_self),
        ih fun m hm ↦ h m (List.mem_cons_of_mem _ hm)]
      rfl

/-- **Round trip.**  A text that is written line by line is read as these lines. -/
theorem readLines_flatMap_line {ls : List (List Char)} (h : ∀ l ∈ ls, OneLine l) :
    readLines (ls.flatMap line) = ls.map line := by
  rw [readLines, universalNewlines_flatMap_line h, lines_flatMap_line fun l hl ↦ (h l hl).1]

/-- Splitting the text at the line ends leaves an empty piece behind the last of them. -/
theorem splitOn_flatMap_line {ls : List (List Char)} (h : ∀ l ∈ ls, '\n' ∉ l) :
    (ls.flatMap line).splitOn '\n' = ls ++ [[]] := by
  have hjoin : ls.flatMap line = ['\n'].intercalate (ls ++ [[]]) := by
    induction ls with
    | nil => rfl
    | cons l ls ih =>
        rw [List.flatMap_cons, ih fun m hm ↦ h m (List.mem_cons_of_mem _ hm), line,
          List.cons_append]
        cases hrest : ls ++ [[]] with
        | nil => cases ls <;> cases hrest
        | cons m ms => exact (List.intercalate_cons_cons).symm
  rw [hjoin]
  refine List.splitOn_intercalate '\n' (fun l hl ↦ ?_)
    (List.append_ne_nil_of_right_ne_nil _ (List.cons_ne_nil _ _))
  rcases List.mem_append.mp hl with hl | hl
  · exact h l hl
  · rw [List.mem_singleton.mp hl]
    exact List.not_mem_nil

/-! ## Fields separated by tabs -/

/-- A text that `%s` can print into a field: it ends neither the field, nor the line, nor
the string itself. -/
def IsField (t : List Char) : Prop := '\t' ∉ t ∧ OneLine t ∧ '\x00' ∉ t

instance (t : List Char) : Decidable (IsField t) := inferInstanceAs (Decidable (_ ∧ (_ ∧ _) ∧ _))

/-- Fields with tabs between them. -/
def tabbed (fs : List (List Char)) : List Char := ['\t'].intercalate fs

/-- The fields of a line. -/
def fields (l : List Char) : List (List Char) := (chomp l).splitOn '\t'

theorem tabbed_cons_cons (f g : List Char) (fs : List (List Char)) :
    tabbed (f :: g :: fs) = f ++ ['\t'] ++ tabbed (g :: fs) :=
  List.intercalate_cons_cons

theorem oneLine_tabbed {fs : List (List Char)} (h : ∀ f ∈ fs, OneLine f) : OneLine (tabbed fs) := by
  induction fs with
  | nil => exact ⟨List.not_mem_nil, List.not_mem_nil⟩
  | cons f fs ih =>
      have hf : OneLine f := h f List.mem_cons_self
      have hfs : OneLine (tabbed fs) := ih fun g hg ↦ h g (List.mem_cons_of_mem _ hg)
      cases fs with
      | nil => rwa [tabbed, List.intercalate_singleton]
      | cons g fs =>
          rw [tabbed_cons_cons]
          exact (hf.append ⟨by decide, by decide⟩).append hfs

/-- **Round trip.**  The fields that were written to a line are the fields of the line. -/
theorem fields_line_tabbed {fs : List (List Char)} (hne : fs ≠ []) (h : ∀ f ∈ fs, IsField f) :
    fields (line (tabbed fs)) = fs := by
  rw [fields, chomp_line (oneLine_tabbed fun f hf ↦ (h f hf).2.1), tabbed]
  exact List.splitOn_intercalate '\t' (fun f hf ↦ (h f hf).1) hne

/-! ## Text that ends in the middle of a line -/

/-- An initial part of concatenated pieces: some whole pieces, and perhaps an initial part of the
next one. -/
theorem exists_of_prefix_flatMap {α β : Type*} {f : α → List β} {xs : List α} {q : List β}
    (h : q <+: xs.flatMap f) : ∃ k p, k ≤ xs.length ∧ q = (xs.take k).flatMap f ++ p ∧
      (p = [] ∨ ∃ x, xs[k]? = some x ∧ p <+: f x ∧ p.length < (f x).length) := by
  induction xs generalizing q with
  | nil => exact ⟨0, [], le_refl 0, List.prefix_nil.mp h, Or.inl rfl⟩
  | cons x xs ih =>
      rw [List.flatMap_cons] at h
      rcases Nat.lt_or_ge q.length (f x).length with hlt | hge
      · have hq : q <+: f x := List.prefix_of_prefix_length_le h (List.prefix_append _ _) hlt.le
        exact ⟨0, q, Nat.zero_le _, rfl, Or.inr ⟨x, rfl, hq, hlt⟩⟩
      · obtain ⟨q', rfl⟩ := List.prefix_of_prefix_length_le (List.prefix_append _ _) h hge
        obtain ⟨k, p, hk, rfl, hp⟩ := ih ((List.prefix_append_right_inj _).mp h)
        refine ⟨k + 1, p, Nat.succ_le_succ hk, ?_, hp⟩
        rw [List.take_succ_cons, List.flatMap_cons, List.append_assoc]

/-- A part of a line as it is written that lacks the line end is a part of the line. -/
theorem prefix_of_prefix_line {l p : List Char} (h : p <+: line l)
    (hlt : p.length < (line l).length) : p <+: l := by
  rw [line, List.length_append, List.length_singleton] at hlt
  exact List.prefix_of_prefix_length_le h (List.prefix_append _ _) (Nat.le_of_lt_succ hlt)

theorem chomp_of_oneLine {l : List Char} (h : OneLine l) : chomp l = l := by
  have hline := chomp_line h
  rwa [chomp, line, List.rdropWhile_concat_pos _ _ _ (by rfl)] at hline

theorem OneLine.mono {l p : List Char} (h : OneLine l) (hp : p <+: l) : OneLine p :=
  ⟨fun hmem ↦ h.1 (hp.subset hmem), fun hmem ↦ h.2 (hp.subset hmem)⟩

/-- What is left of a text without a line end is its last line. -/
theorem linesFrom_of_oneLine (acc : List Char) {p : List Char} (h : '\n' ∉ p) :
    linesFrom acc p = if acc ++ p = [] then [] else [acc ++ p] := by
  induction p generalizing acc with
  | nil =>
      rw [List.append_nil]
      rfl
  | cons c p ih =>
      have hc : c ≠ '\n' := fun hc ↦ h (hc ▸ List.mem_cons_self)
      rw [linesFrom, if_neg hc, ih (acc ++ [c]) fun hp ↦ h (List.mem_cons_of_mem _ hp),
        List.append_assoc, List.singleton_append]

/-- **A text that breaks off.**  The lines before the last one are read as they are, and what is
there of the last line is a line of its own. -/
theorem readLines_flatMap_line_append {ls : List (List Char)} (h : ∀ l ∈ ls, OneLine l)
    {p : List Char} (hp : OneLine p) :
    readLines (ls.flatMap line ++ p) = ls.map line ++ if p = [] then [] else [p] := by
  have hself : universalNewlines (ls.flatMap line ++ p) = ls.flatMap line ++ p := by
    refine universalNewlines_eq_self fun hmem ↦ ?_
    rcases List.mem_append.mp hmem with hmem | hmem
    · obtain ⟨l, hl, hcr⟩ := List.mem_flatMap.mp hmem
      rcases List.mem_append.mp hcr with hcr | hcr
      · exact (h l hl).2 hcr
      · exact absurd hcr (by decide)
    · exact hp.2 hmem
  rw [readLines, hself]
  clear hself
  induction ls with
  | nil =>
      rw [List.flatMap_nil, List.nil_append, lines, linesFrom_of_oneLine [] hp.1]
      rfl
  | cons l ls ih =>
      rw [List.flatMap_cons, List.append_assoc, lines, linesFrom_line [] (h l List.mem_cons_self).1,
        ih fun m hm ↦ h m (List.mem_cons_of_mem _ hm)]
      rfl

/-- An initial part of tabbed fields: some whole fields, and an initial part of the next one. -/
theorem exists_of_prefix_tabbed {fs : List (List Char)} (hne : fs ≠ []) {p : List Char}
    (h : p <+: tabbed fs) :
    ∃ i g f, fs[i]? = some f ∧ g <+: f ∧ p = tabbed (fs.take i ++ [g]) := by
  induction fs generalizing p with
  | nil => exact absurd rfl hne
  | cons f fs ih =>
      cases fs with
      | nil =>
          rw [tabbed, List.intercalate_singleton] at h
          refine ⟨0, p, f, rfl, h, ?_⟩
          rw [List.take_zero, List.nil_append, tabbed, List.intercalate_singleton]
      | cons f' fs =>
          rw [tabbed_cons_cons] at h
          rcases Nat.lt_or_ge p.length (f ++ ['\t']).length with hlt | hge
          · have hp : p <+: f ++ ['\t'] :=
              List.prefix_of_prefix_length_le h (List.prefix_append _ _) hlt.le
            rw [List.length_append, List.length_singleton] at hlt
            refine ⟨0, p, f, rfl, ?_, ?_⟩
            · exact List.prefix_of_prefix_length_le hp (List.prefix_append _ _)
                (Nat.le_of_lt_succ hlt)
            · rw [List.take_zero, List.nil_append, tabbed, List.intercalate_singleton]
          · obtain ⟨p', rfl⟩ := List.prefix_of_prefix_length_le (List.prefix_append _ _) h hge
            obtain ⟨i, g, e, he, hg, rfl⟩ :=
              ih (List.cons_ne_nil _ _) ((List.prefix_append_right_inj _).mp h)
            refine ⟨i + 1, g, e, he, hg, ?_⟩
            rw [List.take_succ_cons, List.cons_append]
            cases hrest : (f' :: fs).take i ++ [g] with
            | nil => exact absurd hrest (List.append_ne_nil_of_right_ne_nil _ (List.cons_ne_nil _ _))
            | cons a as => rw [tabbed_cons_cons]

/-- **The fields of a line that breaks off**: the last one is cut. -/
theorem fields_of_prefix_tabbed {fs : List (List Char)} (hne : fs ≠ []) (hfs : ∀ f ∈ fs, IsField f)
    {p : List Char} (h : p <+: tabbed fs) :
    ∃ i g f, fs[i]? = some f ∧ g <+: f ∧ fields p = fs.take i ++ [g] := by
  have hone : OneLine p := (oneLine_tabbed fun f hf ↦ (hfs f hf).2.1).mono h
  obtain ⟨i, g, f, hf, hg, hp⟩ := exists_of_prefix_tabbed hne h
  refine ⟨i, g, f, hf, hg, ?_⟩
  rw [fields, chomp_of_oneLine hone, hp, tabbed]
  refine List.splitOn_intercalate '\t' (fun x hx ↦ ?_)
    (List.append_ne_nil_of_right_ne_nil _ (List.cons_ne_nil _ _))
  rcases List.mem_append.mp hx with hx | hx
  · exact (hfs x (List.mem_of_mem_take hx)).1
  · rw [List.mem_singleton.mp hx]
    exact fun htab ↦ (hfs f (List.mem_of_getElem? hf)).1 (hg.subset htab)

/-! ## Text that is read and written again -/

theorem notMem_universalNewlines (t : List Char) : '\r' ∉ universalNewlines t := by
  fun_induction universalNewlines t with
  | case1 => exact List.not_mem_nil
  | case2 t ih => exact fun h ↦ (List.mem_cons.mp h).elim (by decide) ih
  | case3 t _ ih => exact fun h ↦ (List.mem_cons.mp h).elim (by decide) ih
  | case4 c t _ hc ih => exact fun h ↦ (List.mem_cons.mp h).elim (fun he ↦ hc he.symm) ih

/-- A text consists of lines as they are written, and of what is there of another one. -/
theorem exists_flatMap_line {t : List Char} (h : '\r' ∉ t) :
    ∃ (ls : List (List Char)) (p : List Char),
      (∀ l ∈ ls, OneLine l) ∧ OneLine p ∧ t = ls.flatMap line ++ p := by
  induction t with
  | nil => exact ⟨[], [], fun _ hl ↦ absurd hl List.not_mem_nil, by decide, rfl⟩
  | cons c t ih =>
      obtain ⟨hc, ht⟩ := not_or.mp (List.mem_cons.not.mp h)
      obtain ⟨ls, p, hls, hp, rfl⟩ := ih ht
      by_cases hnl : c = '\n'
      · subst hnl
        exact ⟨[] :: ls, p, List.forall_mem_cons.mpr ⟨by decide, hls⟩, hp, rfl⟩
      · have hcons (l : List Char) (hl : OneLine l) : OneLine (c :: l) :=
          ⟨fun hmem ↦ (List.mem_cons.mp hmem).elim (fun he ↦ hnl he.symm) hl.1,
            fun hmem ↦ (List.mem_cons.mp hmem).elim hc hl.2⟩
        cases ls with
        | nil => exact ⟨[], c :: p, hls, hcons p hp, rfl⟩
        | cons l ls =>
            obtain ⟨hl, hls⟩ := List.forall_mem_cons.mp hls
            exact ⟨(c :: l) :: ls, p, List.forall_mem_cons.mpr ⟨hcons l hl, hls⟩, hp, rfl⟩

/-- Lines that were read are read again. -/
theorem readLines_flatten_of_prefix {t : List Char} {ls : List (List Char)}
    (h : ls <+: readLines t) : readLines ls.flatten = ls := by
  obtain ⟨ms, p, hms, hp, ht⟩ := exists_flatMap_line (notMem_universalNewlines t)
  have hself : universalNewlines (ms.flatMap line ++ p) = ms.flatMap line ++ p := by
    rw [← ht]
    exact universalNewlines_eq_self (notMem_universalNewlines t)
  have hread : readLines t = ms.map line ++ if p = [] then [] else [p] := by
    rw [← readLines_flatMap_line_append hms hp, readLines, readLines, ht, hself]
  have whole (h : ls <+: ms.map line) : readLines ls.flatten = ls := by
    obtain ⟨ls', hpre, rfl⟩ := List.prefix_map_iff.mp h
    rw [← List.flatMap_def]
    exact readLines_flatMap_line fun l hl ↦ hms l (hpre.subset hl)
  rw [hread] at h
  by_cases hnil : p = []
  · rw [if_pos hnil, List.append_nil] at h
    exact whole h
  · rw [if_neg hnil] at h
    rcases List.prefix_concat_iff.mp h with rfl | h
    · have hlast := readLines_flatMap_line_append hms hp
      rwa [if_neg hnil, List.flatMap_def, ← List.flatten_concat] at hlast
    · exact whole h

end DeadLockDetect.Text
