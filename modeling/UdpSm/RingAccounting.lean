import UdpSm.RingRefinement

/-! Whether the byte counter is exact, over every order of operations. -/
namespace UdpSm.RingFIFOBuffer
open Lib

/-- Tails skipped by the jump markers of blocks stored from `r` on. -/
def gaps (B : Nat) : Nat → List Nat → Nat
  | _, [] => 0
  | r, d :: ds => (if r % B + d ≤ B then 0 else B - r % B) + gaps B (advance B r d) ds

/-- Bytes of the messages stored, with their length words and rounding, and of pending gaps. -/
def occupied (p : Ringbuffer) : Nat :=
  (sizes (contents p)).sum + gaps p.ptr.size p.readIndex.toNat (sizes (contents p))

def Exact (p : Ringbuffer) : Prop := p.numberOfStoredBytes = occupied p

def Op.Short : Op → Prop
  | .write _ length => length.toNat < 2 ^ 29
  | .read => True

instance : (op : Op) → Decidable op.Short
  | .write _ length => inferInstanceAs (Decidable (length.toNat < 2 ^ 29))
  | .read => inferInstanceAs (Decidable True)

/-- The message next to be read lies behind a jump marker. -/
def JumpPending (p : Ringbuffer) : Prop := p.ptr.load p.readIndex.toNat 4 = [0, 0, 0, 0]

instance (p : Ringbuffer) : Decidable (JumpPending p) := inferInstanceAs (Decidable (_ = _))

/-- The operation is no read across a jump marker that leaves messages behind. -/
def Accounted (p : Ringbuffer) (op : Op) : Prop :=
  match op with
  | .write _ _ => True
  | .read => ¬(JumpPending p ∧ 1 < p.framesStored)

instance (p : Ringbuffer) : (op : Op) → Decidable (Accounted p op)
  | .write _ _ => inferInstanceAs (Decidable True)
  | .read => inferInstanceAs (Decidable ¬(JumpPending p ∧ 1 < p.framesStored))

theorem gaps_mul_add (B k r : Nat) (ds : List Nat) : gaps B (B * k + r) ds = gaps B r ds := by
  induction ds generalizing r with
  | nil => rfl
  | cons d ds ih => rw [gaps, gaps, advance_mul_add, Nat.mul_add_mod, ih]

theorem gaps_mod (B r : Nat) (ds : List Nat) : gaps B (r % B) ds = gaps B r ds := by
  have hshift := gaps_mul_add B (r / B) (r % B) ds
  rw [Nat.div_add_mod] at hshift
  exact hshift.symm

theorem sum_add_gaps (B r : Nat) (ds : List Nat) : r + (ds.sum + gaps B r ds) = advanceAll B r ds := by
  induction ds generalizing r with
  | nil => rfl
  | cons d ds ih =>
    rw [List.sum_cons, gaps, advanceAll_cons, ← ih, advance, place]
    split_ifs <;> omega

section Step
variable {p p' : Ringbuffer} {R : Nat} {q : List (List UInt8)}

theorem Holds.occupied_eq (h : Holds p R q) :
    R + RingFIFOBuffer.occupied p = queueEnd p.ptr.size R q := by
  rw [RingFIFOBuffer.occupied, h.contents_eq, h.readIndex, Int.toNat_natCast, gaps_mod, sum_add_gaps]
  rfl

theorem Holds.exact_iff (h : Holds p R q) :
    Exact p ↔ R + p.numberOfStoredBytes = queueEnd p.ptr.size R q := by
  have ho := h.occupied_eq
  unfold Exact
  omega

theorem Holds.jumpPending_iff {m : List UInt8} (h : Holds p R (m :: q)) :
    JumpPending p ↔ ¬R % p.ptr.size + padded m.length ≤ p.ptr.size := by
  obtain ⟨hword, -, hmark⟩ := h.head_image
  obtain ⟨hm1, hm2⟩ := h.lengths m (by simp)
  rw [JumpPending, h.readIndex, Int.toNat_natCast]
  constructor
  · intro hzero hfit
    rw [place, if_pos hfit, hzero] at hword
    have hle := (length_word hm2).2
    rw [← hword] at hle
    exact absurd hle (by change 0 ≠ _; omega)
  · exact hmark

theorem write_empty (p : Ringbuffer) (data : Nat → UInt8) : write p (some data) 0 = some (0, p) := by
  simp [write]

theorem Holds.write_exact (h : Holds p R q) (hexact : Exact p) (data : Nat → UInt8)
    {length : UInt32} (hl : length.toNat < 2 ^ 29) :
    ∃ rv p' q', write p (some data) length = some (rv, p') ∧ p'.ptr.size = p.ptr.size ∧
      Holds p' R q' ∧ Exact p' := by
  by_cases h0 : length = 0
  · subst h0
    exact ⟨0, p, q, write_empty p data, rfl, h, hexact⟩
  by_cases hr : (advance p.ptr.size (queueEnd p.ptr.size R q) (padded length.toNat) : Int) +
      p.numberOfStoredBytes ≤ queueEnd p.ptr.size R q + p.ptr.size
  · have h1 : 1 ≤ length.toNat := Nat.one_le_iff_ne_zero.mpr fun hz => h0 (UInt32.toNat_inj.mp hz)
    obtain ⟨p', hw, hsize, hbytes, hp'⟩ := h.write_accept data length h1 hl hr
    have hend := queueEnd_append p.ptr.size R q ((List.range length.toNat).map data)
    rw [List.length_map, List.length_range] at hend
    refine ⟨_, p', _, hw, hsize, hp', hp'.exact_iff.mpr ?_⟩
    have hbefore := h.exact_iff.mp hexact
    rw [hsize, hend]
    omega
  · exact ⟨0, p, q, h.write_reject data length hl hr, rfl, h, hexact⟩

/-- At a jump only the skipped tail is taken off the counter, not the message itself; the counter
is right again only because a ring that becomes empty resets it. -/
theorem Holds.read_exact {m : List UInt8} (h : Holds p R (m :: q)) (hexact : Exact p) :
    ∃ rv p', read p = some (rv, m, p') ∧ p'.ptr.size = p.ptr.size ∧
      Holds p' (advance p.ptr.size R (padded m.length)) q ∧ (Exact p' ↔ Accounted p .read) := by
  obtain ⟨p', hread, hptr, hp'⟩ := h.read_cons
  have hresult := h.read_result
  rw [hread] at hresult
  obtain rfl : p' = _ := congrArg (fun r => r.2.2) (Option.some.inj hresult)
  refine ⟨_, _, hread, rfl, hp', ?_⟩
  have hframes : 1 < p.framesStored ↔ q ≠ [] := by
    rw [h.frames, List.length_cons]
    cases q with
    | nil => simp
    | cons a q => simp
  have hend : queueEnd p.ptr.size R (m :: q) =
      queueEnd p.ptr.size (advance p.ptr.size R (padded m.length)) q := by
    simp [queueEnd, sizes]
  have hbefore := h.exact_iff.mp hexact
  rw [hend] at hbefore
  rw [hp'.exact_iff, Accounted, h.jumpPending_iff, hframes]
  have hpos := padded_pos m.length
  by_cases hq : q = []
  · subst hq
    simp [queueEnd, sizes]
  · simp only [if_neg hq, charge]
    by_cases hfit : R % p.ptr.size + padded m.length ≤ p.ptr.size
    · have hadv : advance p.ptr.size R (padded m.length) = R + padded m.length := by
        rw [advance, place, if_pos hfit]
      simp only [hfit, if_true, not_true_eq_false, false_and, not_false_eq_true, iff_true]
      omega
    · have hadv : advance p.ptr.size R (padded m.length) =
          R + (p.ptr.size - R % p.ptr.size) + padded m.length := by
        rw [advance, place, if_neg hfit]
      simp only [hfit, if_false, hq, not_false_eq_true, ne_eq, and_self, not_true_eq_false,
        iff_false]
      omega

def ShortStep (p : Ringbuffer) (e : Event) (p' : Ringbuffer) : Prop :=
  e.op.Short ∧ perform p e.op = some (e, p')

theorem Holds.shortStep (h : Holds p R q) (hexact : Exact p) {e : Event}
    (hstep : ShortStep p e p') : p'.ptr.size = p.ptr.size ∧ (∃ R' q', Holds p' R' q') ∧
      (Exact p' ↔ Accounted p e.op) := by
  obtain ⟨op, rv, data⟩ := e
  obtain ⟨hshort, hperform⟩ := hstep
  cases op with
  | write data length =>
    obtain ⟨rv', p'', q', hw, hsize, hp', hexact'⟩ := h.write_exact hexact data hshort
    simp only [RingFIFOBuffer.perform, hw, Option.map_some, Option.some.injEq, Prod.mk.injEq]
      at hperform
    obtain ⟨-, rfl⟩ := hperform
    exact ⟨hsize, ⟨R, q', hp'⟩, iff_of_true hexact' trivial⟩
  | read =>
    cases q with
    | nil =>
      simp only [RingFIFOBuffer.perform, h.read_empty, Option.map_some, Option.some.injEq,
        Prod.mk.injEq] at hperform
      obtain ⟨-, rfl⟩ := hperform
      have hidle : Accounted p .read := fun hj => by
        rw [h.frames] at hj
        simp at hj
      exact ⟨rfl, ⟨R, [], h⟩, iff_of_true hexact hidle⟩
    | cons m q =>
      obtain ⟨rv', p'', hr, hsize, hp', hiff⟩ := h.read_exact hexact
      simp only [RingFIFOBuffer.perform, hr, Option.map_some, Option.some.injEq, Prod.mk.injEq]
        at hperform
      obtain ⟨-, rfl⟩ := hperform
      exact ⟨hsize, ⟨_, q, hp'⟩, hiff⟩

end Step

def AccountedStep (p : Ringbuffer) (e : Event) (p' : Ringbuffer) : Prop :=
  ShortStep p e p' ∧ Accounted p e.op

/-- In every run without such a read the counter stays exact, and so does the capacity; the next
operation keeps it so exactly if it is no such read. -/
theorem exact_accounting {size : UInt64} {es : List Event} {p : Ringbuffer}
    (h1 : 64 ≤ (ringInitialize size).2.bufferSize)
    (h2 : (ringInitialize size).2.bufferSize ≤ 2 ^ 29)
    (h : Run AccountedStep (ringInitialize size).2 es p) :
    p.numberOfStoredBytes = occupied p ∧
    (getCapacity p).1 = (ringInitialize size).2.bufferSize - occupied p ∧
    ∀ e p', ShortStep p e p' → (p'.numberOfStoredBytes = occupied p' ↔ Accounted p e.op) := by
  have hinit := holds_ringInitialize h1 h2
  obtain ⟨⟨R, q, hp⟩, hexact, hsize⟩ := Run.invariant
    (fun _ p => (∃ R q, Holds p R q) ∧ Exact p ∧ p.ptr.size = (ringInitialize size).2.ptr.size)
    ⟨⟨0, [], hinit⟩, hinit.exact_iff.mpr (by rw [hinit.idle rfl]; simp [queueEnd, sizes]), rfl⟩
    (by
      rintro es t e u ⟨⟨R, q, ht⟩, hexact, hsize⟩ ⟨hstep, haccounted⟩
      obtain ⟨hsize', hu, hiff⟩ := ht.shortStep hexact hstep
      exact ⟨hu, hiff.mpr haccounted, hsize'.trans hsize⟩) h
  refine ⟨hexact, ?_, fun e p' hstep => (hp.shortStep hexact hstep).2.2⟩
  rw [hp.getCapacity_eq, hsize, hinit.bufferSize, hexact]

theorem exact_accounting_wrapping : ∃ es p, Run AccountedStep (ringInitialize 256).2 es p ∧
    es.map Event.rv = [60, 60, 60, 60, 60, 124, 60, 124, 60] ∧ p.writeIndex = 192 ∧
    p.numberOfStoredBytes = 64 ∧ occupied p = 64 ∧ (getCapacity p).1 = 192 := by
  have hvalues : (performAll (fun p op => decide (op.Short ∧ Accounted p op)) (ringInitialize 256).2
      wrappingOps).map (fun r => (r.1.map Event.rv, r.2.writeIndex, occupied r.2)) =
        some ([60, 60, 60, 60, 60, 124, 60, 124, 60], 192, 64) := by decide +kernel
  obtain ⟨⟨es, p⟩, hr, hvalues⟩ := Option.map_eq_some_iff.mp hvalues
  simp only [Prod.mk.injEq] at hvalues
  obtain ⟨hrvs, hindex, hoccupied⟩ := hvalues
  have hrun : Run AccountedStep (ringInitialize 256).2 es p := by
    refine performAll_run (fun _ _ _ hop hperform => ?_) hr
    obtain ⟨hshort, haccounted⟩ := of_decide_eq_true hop
    exact ⟨⟨hshort, hperform⟩, haccounted⟩
  have hsize : (ringInitialize 256).2.bufferSize = 256 := by decide +kernel
  obtain ⟨hbytes, hcapacity, -⟩ := exact_accounting (by decide +kernel) (by decide +kernel) hrun
  rw [hoccupied] at hbytes hcapacity
  rw [hsize] at hcapacity
  exact ⟨es, p, hrun, hrvs, hindex, hbytes, hoccupied, hcapacity⟩

/-- In a ring of 256 bytes the fourth message jumps over the last 64 bytes, and is read while the
fifth is already stored. -/
def driftingOps : List Op :=
  [.write (fun _ => 1) 60, .write (fun _ => 2) 60, .write (fun _ => 3) 60, .read, .read,
    .write (fun _ => 4) 124, .read, .write (fun _ => 5) 60, .read]

theorem counter_drifts : ∃ es p, Run ShortStep (ringInitialize 256).2 es p ∧
    (ringInitialize 256).2.bufferSize = 256 ∧ p.numberOfStoredBytes = 192 ∧ occupied p = 64 := by
  have hrun : (performAll (fun _ op => decide op.Short) (ringInitialize 256).2 driftingOps).map
      (fun r => (r.2.numberOfStoredBytes, occupied r.2)) = some (192, 64) := by decide +kernel
  obtain ⟨⟨es, p⟩, hr, hvalues⟩ := Option.map_eq_some_iff.mp hrun
  obtain ⟨hbytes, hoccupied⟩ := Prod.mk.inj hvalues
  have hsteps : Run ShortStep (ringInitialize 256).2 es p :=
    performAll_run (fun _ _ _ hop hperform => ⟨of_decide_eq_true hop, hperform⟩) hr
  exact ⟨es, p, hsteps, by decide +kernel, hbytes, hoccupied⟩

end UdpSm.RingFIFOBuffer
