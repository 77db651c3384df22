import UdpSm.RingQueue
import UdpSm.Lib.Transition
import Mathlib.Data.List.Induction

/-! A fresh ring refines a FIFO of byte strings, over every order of operations. -/
namespace UdpSm.RingFIFOBuffer
open Lib
variable {p : Ringbuffer} {R : Nat}

inductive Op where
  | write (data : Nat → UInt8) (length : UInt32)
  | read

/-- An operation with what it returned; a read also hands over bytes. -/
structure Event where
  op : Op
  rv : Int
  data : List UInt8

def perform (p : Ringbuffer) : Op → Option (Event × Ringbuffer)
  | .write data length =>
    (write p (some data) length).map fun r => (⟨.write data length, r.1, []⟩, r.2)
  | .read => (read p).map fun r => (⟨.read, r.1, r.2.1⟩, r.2.2)

def Op.InRange : Op → Prop
  | .write _ length => 1 ≤ length.toNat ∧ length.toNat < 2 ^ 29
  | .read => True

def Step (p : Ringbuffer) (e : Event) (p' : Ringbuffer) : Prop :=
  e.op.InRange ∧ perform p e.op = some (e, p')

instance : (op : Op) → Decidable op.InRange
  | .write _ length => inferInstanceAs (Decidable (1 ≤ length.toNat ∧ length.toNat < 2 ^ 29))
  | .read => inferInstanceAs (Decidable True)

def performAll (allowed : Ringbuffer → Op → Bool) (p : Ringbuffer) :
    List Op → Option (List Event × Ringbuffer)
  | [] => some ([], p)
  | op :: ops =>
    if allowed p op then
      (perform p op).bind fun r =>
        (performAll allowed r.2 ops).map fun s => (r.1 :: s.1, s.2)
    else none

theorem perform_op {p p' : Ringbuffer} {op : Op} {e : Event} (h : perform p op = some (e, p')) :
    e.op = op := by
  cases op with
  | write data length =>
    obtain ⟨r, -, hr⟩ := Option.map_eq_some_iff.mp h
    obtain ⟨rfl, -⟩ := Prod.mk.inj hr
    rfl
  | read =>
    obtain ⟨r, -, hr⟩ := Option.map_eq_some_iff.mp h
    obtain ⟨rfl, -⟩ := Prod.mk.inj hr
    rfl

theorem performAll_run {step : Ringbuffer → Event → Ringbuffer → Prop} {allowed : Ringbuffer → Op → Bool}
    (hstep : ∀ p e p', allowed p e.op = true → perform p e.op = some (e, p') → step p e p')
    {p p' : Ringbuffer} {ops : List Op} {es : List Event}
    (h : performAll allowed p ops = some (es, p')) : Run step p es p' := by
  induction ops generalizing p es with
  | nil =>
    obtain ⟨rfl, rfl⟩ := Prod.mk.inj (Option.some.inj h)
    exact .nil
  | cons op ops ih =>
    rw [performAll] at h
    split_ifs at h with hallowed
    obtain ⟨⟨e, u⟩, hperform, hrest⟩ := Option.bind_eq_some_iff.mp h
    obtain ⟨⟨es', u'⟩, hall, hr⟩ := Option.map_eq_some_iff.mp hrest
    obtain ⟨rfl, rfl⟩ := Prod.mk.inj hr
    obtain rfl := perform_op hperform
    exact (Run.single (hstep p e u hallowed hperform)).append (ih hall)

inductive FifoStep : List (List UInt8) → Event → List (List UInt8) → Prop where
  | reject (q : List (List UInt8)) (data : Nat → UInt8) (length : UInt32) :
      FifoStep q ⟨.write data length, 0, []⟩ q
  | append (q : List (List UInt8)) (data : Nat → UInt8) (length : UInt32) :
      FifoStep q ⟨.write data length, length.toNat, []⟩ (q ++ [(List.range length.toNat).map data])
  | idle : FifoStep [] ⟨.read, 0, []⟩ []
  | take (m : List UInt8) (q : List (List UInt8)) : FifoStep (m :: q) ⟨.read, m.length, m⟩ q

/-- One operation: it stays inside the storage and is a step of the queue. -/
theorem Holds.perform {q : List (List UInt8)} (h : Holds p R q) {op : Op} (hop : op.InRange) :
    ∃ e p' R' q', perform p op = some (e, p') ∧ e.op = op ∧ p'.ptr.size = p.ptr.size ∧
      FifoStep q e q' ∧ Holds p' R' q' := by
  cases op with
  | write data length =>
    by_cases hr : (advance p.ptr.size (queueEnd p.ptr.size R q) (padded length.toNat) : Int) +
        p.numberOfStoredBytes ≤ queueEnd p.ptr.size R q + p.ptr.size
    · obtain ⟨p', hw, hsize, -, h'⟩ := h.write_accept data length hop.1 hop.2 hr
      exact ⟨_, p', R, _, by simp only [RingFIFOBuffer.perform, hw]; rfl, rfl, hsize, .append .., h'⟩
    · have hw := h.write_reject data length hop.2 hr
      exact ⟨_, p, R, q, by simp only [RingFIFOBuffer.perform, hw]; rfl, rfl, rfl, .reject .., h⟩
  | read =>
    cases q with
    | nil =>
      have hr := h.read_empty
      exact ⟨_, p, R, [], by simp only [RingFIFOBuffer.perform, hr]; rfl, rfl, rfl, .idle, h⟩
    | cons m q =>
      obtain ⟨p', hr, hptr, h'⟩ := h.read_cons
      exact ⟨_, p', _, q, by simp only [RingFIFOBuffer.perform, hr]; rfl, rfl,
        by rw [hptr], .take .., h'⟩

theorem nextpow2_toNat (i : UInt64) : ∃ k, k < 64 ∧ (nextpow2 i).toNat = 2 ^ k := by
  unfold nextpow2
  rw [UInt64.toNat_shiftLeft]
  have hk := Nat.mod_lt (UInt64.ofNat (1 + (63 - builtinClzl (i - 1)))).toNat (show 0 < 64 by omega)
  refine ⟨_, hk, ?_⟩
  rw [Nat.shiftLeft_eq]
  change 1 * 2 ^ _ % 2 ^ 64 = _
  rw [Nat.one_mul, Nat.mod_eq_of_lt (Nat.pow_lt_pow_right (by omega) hk)]

theorem int32_two_pow {k : Nat} (hk : k < 64) (h1 : 64 ≤ int32 (2 ^ k : Nat))
    (h2 : int32 (2 ^ k : Nat) ≤ 2 ^ 29) : int32 (2 ^ k : Nat) = (2 ^ k : Nat) ∧ 64 ∣ 2 ^ k := by
  revert h1 h2
  revert k
  decide +kernel

theorem holds_ringInitialize {size : UInt64} (h1 : 64 ≤ (ringInitialize size).2.bufferSize)
    (h2 : (ringInitialize size).2.bufferSize ≤ 2 ^ 29) : Holds (ringInitialize size).2 0 [] := by
  have hsize : size ≠ 0 := by
    rintro rfl
    exact absurd h1 (by decide)
  obtain ⟨k, hk, hpow⟩ := nextpow2_toNat size
  simp only [ringInitialize, if_neg hsize, hpow] at h1 h2 ⊢
  obtain ⟨hint, hdvd⟩ := int32_two_pow hk h1 h2
  rw [hint] at h1 h2 ⊢
  constructor
  · rfl
  · exact hdvd
  · exact Int.ofNat_le.mp h1
  · exact Int.ofNat_le.mp h2
  · exact Nat.dvd_zero 64
  · simp
  · simp [queueEnd, sizes]
  · rfl
  · simp [queueEnd, sizes]
  · simp
  · simp
  · simp
  · simp [queueChunks]

theorem exists_filled {size : UInt64} (h1 : 64 ≤ (ringInitialize size).2.bufferSize)
    (h2 : (ringInitialize size).2.bufferSize ≤ 2 ^ 29) (q : List (List UInt8))
    (hq : ∀ m ∈ q, 1 ≤ m.length ∧ m.length < 2 ^ 29)
    (hfit : queueEnd (ringInitialize size).2.ptr.size 0 q ≤ (ringInitialize size).2.ptr.size) :
    ∃ es p, Run Step (ringInitialize size).2 es p ∧ Holds p 0 q ∧
      p.ptr.size = (ringInitialize size).2.ptr.size ∧
      p.numberOfStoredBytes = queueEnd (ringInitialize size).2.ptr.size 0 q := by
  induction q using List.reverseRecOn with
  | nil =>
    have hinit := holds_ringInitialize h1 h2
    exact ⟨[], _, .nil, hinit, rfl, hinit.idle rfl⟩
  | append_singleton q m ih =>
    rw [queueEnd_append] at hfit ⊢
    have hle := le_advance (ringInitialize size).2.ptr.size
      (queueEnd (ringInitialize size).2.ptr.size 0 q) (padded m.length)
    obtain ⟨es, p, hrun, hp, hsize, hbytes⟩ := ih
      (fun a ha => hq a (List.mem_append_left [m] ha)) (by omega)
    obtain ⟨hm1, hm2⟩ := hq m (by simp)
    obtain ⟨hlength, -⟩ := length_word hm2
    have hmessage : (List.range m.length).map (fun i => m.getD i 0) = m := by
      apply List.ext_getElem (by simp)
      intro i _ hi
      simp [hi]
    have hinrange : (Op.write (fun i => m.getD i 0) (UInt32.ofNat m.length)).InRange := by
      simp only [Op.InRange, hlength]
      exact ⟨hm1, hm2⟩
    obtain ⟨p', hw, hsize', hbytes', hp'⟩ := hp.write_accept (fun i => m.getD i 0)
      (UInt32.ofNat m.length) hinrange.1 hinrange.2 (by rw [hlength, hsize, hbytes]; omega)
    rw [hlength, hmessage] at hp'
    rw [hlength, hsize, hbytes] at hbytes'
    have hstep : Step p ⟨.write (fun i => m.getD i 0) (UInt32.ofNat m.length), _, []⟩ p' :=
      ⟨hinrange, by simp only [perform, hw]; rfl⟩
    exact ⟨_, p', hrun.snoc hstep, hp', hsize'.trans hsize, by omega⟩

/-! The rings of the pipeline. -/

theorem initial_ring : 64 ≤ (ringInitialize ringBufferSize).2.bufferSize ∧
    (ringInitialize ringBufferSize).2.bufferSize ≤ 2 ^ 29 ∧
    (ringInitialize ringBufferSize).2.ptr.size = 2097152 := by
  decide +kernel

theorem holds_initial : Holds (ringInitialize ringBufferSize).2 0 [] :=
  holds_ringInitialize initial_ring.1 initial_ring.2.1

theorem exists_frame {F : List UInt8} (h1 : 1 ≤ F.length) (hn : F.length ≤ 9008) :
    ∃ p p', read p = some ((F.length : Int), F, p') := by
  obtain ⟨hlow, hhigh, hsize⟩ := initial_ring
  obtain ⟨es, p, -, hp, -⟩ := exists_filled hlow hhigh [F]
    (by simp only [List.mem_singleton, forall_eq]; omega)
    (by
      rw [hsize, queueEnd]
      have hle := advanceAll_le 2097152 0 (sizes [F])
      have hpad := (padded_bounds F.length).2.1
      simp only [sizes, List.map_cons, List.map_nil, List.sum_cons, List.sum_nil] at hle ⊢
      omega)
  obtain ⟨p', hread, -⟩ := hp.read_cons
  exact ⟨p, p', hread⟩

/-- Every run from `ringInitialize` is one of the queue, whose messages can be read from the ring,
and no operation in range leaves the storage. -/
theorem refines_fifo {size : UInt64} {es : List Event} (h1 : 64 ≤ (ringInitialize size).2.bufferSize)
    (h2 : (ringInitialize size).2.bufferSize ≤ 2 ^ 29) (h : Run Step (ringInitialize size).2 es p) :
    Run FifoStep [] es (contents p) ∧ p.ptr.size = (ringInitialize size).2.bufferSize ∧
      ∀ op : Op, op.InRange → ∃ e p', e.op = op ∧ Step p e p' := by
  have hinit := holds_ringInitialize h1 h2
  obtain ⟨R, q, hq, hrun, hsize⟩ := Run.invariant
    (fun es p => ∃ R q, Holds p R q ∧ Run FifoStep [] es q ∧
      p.ptr.size = (ringInitialize size).2.ptr.size) ⟨0, [], hinit, .nil, rfl⟩
    (by
      rintro es t e u ⟨R, q, ht, hrun, hsize⟩ ⟨hop, hperform⟩
      obtain ⟨e', u', R', q', heq, -, hsize', hstep, hu⟩ := ht.perform hop
      obtain ⟨rfl, rfl⟩ : e' = e ∧ u' = u := by simpa [heq] using hperform
      exact ⟨R', q', hu, hrun.snoc hstep, hsize'.trans hsize⟩) h
  refine ⟨hq.contents_eq ▸ hrun, ?_, ?_⟩
  · rw [hsize, hinit.bufferSize]
  · intro op hop
    obtain ⟨e, p', -, -, heq, rfl, -⟩ := hq.perform hop
    exact ⟨e, p', rfl, hop, heq⟩

/-- In a ring of 256 bytes the fourth message does not fit behind the third. -/
def wrappingOps : List Op :=
  [.write (fun _ => 1) 60, .write (fun _ => 2) 60, .write (fun _ => 3) 60, .read, .read,
    .write (fun _ => 4) 124, .read, .read, .write (fun _ => 5) 60]

theorem refines_fifo_wrapping : ∃ es p, Run Step (ringInitialize 256).2 es p ∧
    es.map Event.rv = [60, 60, 60, 60, 60, 124, 60, 124, 60] ∧
    Run FifoStep [] es [List.replicate 60 5] ∧ p.ptr.size = 256 ∧
    ∀ op : Op, op.InRange → ∃ e p', e.op = op ∧ Step p e p' := by
  have hvalues : (performAll (fun _ op => decide op.InRange) (ringInitialize 256).2 wrappingOps).map
      (fun r => (r.1.map Event.rv, contents r.2)) =
        some ([60, 60, 60, 60, 60, 124, 60, 124, 60], [List.replicate 60 5]) := by decide +kernel
  obtain ⟨⟨es, p⟩, hr, hvalues⟩ := Option.map_eq_some_iff.mp hvalues
  obtain ⟨hrvs, hcontents⟩ := Prod.mk.inj hvalues
  have hrun : Run Step (ringInitialize 256).2 es p :=
    performAll_run (fun _ _ _ hop hperform => ⟨of_decide_eq_true hop, hperform⟩) hr
  have hsize : (ringInitialize 256).2.bufferSize = 256 := by decide +kernel
  obtain ⟨hfifo, hptr, hall⟩ := refines_fifo (by decide +kernel) (by decide +kernel) hrun
  change contents p = _ at hcontents
  rw [hcontents] at hfifo
  exact ⟨es, p, hrun, hrvs, hfifo, by exact_mod_cast hptr.trans hsize, hall⟩

end UdpSm.RingFIFOBuffer
