import UdpSm.RingAccounting

/-! `Snap` and `Discard` as a transaction: writes between them leave no observable trace. -/
namespace UdpSm.RingFIFOBuffer
open Lib

/-- What a caller can do with a ring; `abandon` is `Snap`, some writes, and `Discard`. -/
inductive Call where
  | write (data : Nat → UInt8) (length : UInt32)
  | read
  | getCapacity
  | snap
  | abandon (writes : List ((Nat → UInt8) × UInt32))

def writeAll (r : Ring) : List ((Nat → UInt8) × UInt32) → Option Ring
  | [] => some r
  | w :: ws =>
    match write r.ringbuf (some w.1) w.2 with
    | none => none
    | some (_, p) => writeAll { r with ringbuf := p } ws

abbrev Result := Int × List UInt8

def call (r : Ring) : Call → Option (Result × Ring)
  | .write data length =>
    (write r.ringbuf (some data) length).map fun w => ((w.1, []), { r with ringbuf := w.2 })
  | .read => (read r.ringbuf).map fun w => ((w.1, w.2.1), { r with ringbuf := w.2.2 })
  | .getCapacity => some (((getCapacity r.ringbuf).1, []),
      { r with ringbuf := (getCapacity r.ringbuf).2 })
  | .snap => some ((0, []), snap r)
  | .abandon ws => (writeAll (snap r) ws).map fun r => ((0, []), discard r)

def Call.Short : Call → Prop
  | .write _ length => length.toNat < 2 ^ 29
  | .abandon ws => ∀ w ∈ ws, w.2.toNat < 2 ^ 29
  | _ => True

/-- The results of a sequence of calls, `none` when one leaves the storage. -/
def observe (r : Ring) : List Call → Option (List Result)
  | [] => some []
  | c :: cs =>
    match call r c with
    | none => none
    | some (result, r) => (observe r cs).map fun results => result :: results

/-- Rings with the same indices and counters and the same queue in their storage. -/
structure Alike (p p' : Ringbuffer) (R : Nat) (q : List (List UInt8)) : Prop where
  left : Holds p R q
  right : Holds p' R q
  snap : p'.toSnap = p.toSnap
  size : p'.ptr.size = p.ptr.size

section Step
variable {p p' u u' : Ringbuffer} {R : Nat} {q : List (List UInt8)}

theorem write_toSnap {data : Nat → UInt8} {length : UInt32} {rv rv' : Int}
    (hs : p'.toSnap = p.toSnap) (h : write p (some data) length = some (rv, u))
    (h' : write p' (some data) length = some (rv', u')) : rv' = rv ∧ u'.toSnap = u.toSnap := by
  obtain ⟨s, slip, m⟩ := p
  obtain ⟨s', slip', m'⟩ := p'
  obtain rfl : s' = s := hs
  by_cases hno : length = 0 ∨ ¬hasRoom ⟨s', slip, m⟩ (int32 (next64aligned (length + 4).toUInt64).toNat)
  · have hno' : length = 0 ∨
        ¬hasRoom ⟨s', slip', m'⟩ (int32 (next64aligned (length + 4).toUInt64).toNat) := hno
    simp only [write, if_pos hno] at h
    simp only [write, if_pos hno'] at h'
    obtain ⟨rfl, rfl⟩ := Prod.mk.inj (Option.some.inj h)
    obtain ⟨rfl, rfl⟩ := Prod.mk.inj (Option.some.inj h')
    exact ⟨rfl, rfl⟩
  · have hno' : ¬(length = 0 ∨
        ¬hasRoom ⟨s', slip', m'⟩ (int32 (next64aligned (length + 4).toUInt64).toNat)) := hno
    simp only [write, if_neg hno] at h
    simp only [write, if_neg hno'] at h'
    by_cases hj : int32 (s'.bufferSize - s'.writeIndex) <
        int32 (next64aligned (length + 4).toUInt64).toNat
    · simp only [if_pos hj, Option.bind_eq_bind, Option.bind_some, Option.bind_eq_some_iff] at h h'
      obtain ⟨_, -, _, -, _, -, hp⟩ := h
      obtain ⟨_, -, _, -, _, -, hp'⟩ := h'
      obtain ⟨rfl, rfl⟩ := Prod.mk.inj (Option.some.inj hp)
      obtain ⟨rfl, rfl⟩ := Prod.mk.inj (Option.some.inj hp')
      exact ⟨rfl, rfl⟩
    · simp only [if_neg hj, Option.bind_eq_bind, Option.bind_some, Option.bind_eq_some_iff] at h h'
      obtain ⟨_, -, _, -, hp⟩ := h
      obtain ⟨_, -, _, -, hp'⟩ := h'
      obtain ⟨rfl, rfl⟩ := Prod.mk.inj (Option.some.inj hp)
      obtain ⟨rfl, rfl⟩ := Prod.mk.inj (Option.some.inj hp')
      exact ⟨rfl, rfl⟩

theorem Holds.write_short (h : Holds p R q) (data : Nat → UInt8) {length : UInt32}
    (hl : length.toNat < 2 ^ 29) : ∃ rv u new, write p (some data) length = some (rv, u) ∧
      u.ptr.size = p.ptr.size ∧ Holds u R (q ++ new) ∧
      new = if rv = 0 then [] else [(List.range length.toNat).map data] := by
  by_cases h0 : length = 0
  · subst h0
    exact ⟨0, p, [], write_empty p data, rfl, by simpa using h, by simp⟩
  by_cases hr : (advance p.ptr.size (queueEnd p.ptr.size R q) (padded length.toNat) : Int) +
      p.numberOfStoredBytes ≤ queueEnd p.ptr.size R q + p.ptr.size
  · have h1 : 1 ≤ length.toNat := Nat.one_le_iff_ne_zero.mpr fun hz => h0 (UInt32.toNat_inj.mp hz)
    obtain ⟨u, hw, hsize, -, hu⟩ := h.write_accept data length h1 hl hr
    exact ⟨_, u, _, hw, hsize, hu, by rw [if_neg (by omega)]⟩
  · exact ⟨0, p, [], h.write_reject data length hl hr, rfl, by simpa using h, by simp⟩

theorem Holds.writeAll {r : Ring} (h : Holds r.ringbuf R q)
    {ws : List ((Nat → UInt8) × UInt32)} (hws : ∀ w ∈ ws, w.2.toNat < 2 ^ 29) :
    ∃ r' new, writeAll r ws = some r' ∧ r'.ringbufsnap = r.ringbufsnap ∧
      r'.ringbuf.ptr.size = r.ringbuf.ptr.size ∧ Holds r'.ringbuf R (q ++ new) := by
  induction ws generalizing r q with
  | nil => exact ⟨r, [], rfl, rfl, rfl, by simpa using h⟩
  | cons w ws ih =>
    obtain ⟨rv, u, new, hw, hsize, hu, -⟩ := h.write_short w.1 (hws w (by simp))
    obtain ⟨r', more, hall, hsnap, hsize', hr'⟩ := ih (r := { r with ringbuf := u }) hu
      (fun v hv => hws v (List.mem_cons_of_mem w hv))
    refine ⟨r', new ++ more, ?_, hsnap, hsize'.trans hsize, by rwa [← List.append_assoc]⟩
    simp only [RingFIFOBuffer.writeAll, hw]
    exact hall

theorem Holds.abandon {r : Ring} (h : Holds r.ringbuf R q)
    {ws : List ((Nat → UInt8) × UInt32)} (hws : ∀ w ∈ ws, w.2.toNat < 2 ^ 29) :
    ∃ r', RingFIFOBuffer.writeAll (RingFIFOBuffer.snap r) ws = some r' ∧
      Alike r.ringbuf (discard r').ringbuf R q := by
  obtain ⟨r', new, hall, hsnap, hsize, hr'⟩ := Holds.writeAll (r := RingFIFOBuffer.snap r) h hws
  have hback := h.rollback hr' hsize
  refine ⟨r', hall, h, ?_, hsnap, hsize⟩
  have hdiscard : (discard r').ringbuf = { r'.ringbuf with toSnap := r.ringbuf.toSnap } := by
    rw [discard, hsnap]
    rfl
  rwa [hdiscard]

theorem Alike.write (h : Alike p p' R q) (data : Nat → UInt8) {length : UInt32}
    (hl : length.toNat < 2 ^ 29) : ∃ rv u u' q', write p (some data) length = some (rv, u) ∧
      RingFIFOBuffer.write p' (some data) length = some (rv, u') ∧ Alike u u' R q' := by
  obtain ⟨rv, u, new, hw, hsize, hu, hnew⟩ := h.left.write_short data hl
  obtain ⟨rv', u', new', hw', hsize', hu', hnew'⟩ := h.right.write_short data hl
  obtain ⟨rfl, hsnap⟩ := write_toSnap h.snap hw hw'
  obtain rfl : new' = new := hnew'.trans hnew.symm
  exact ⟨rv', u, u', q ++ new', hw, hw', hu, hu', hsnap, by rw [hsize, hsize', h.size]⟩

theorem Alike.read (h : Alike p p' R q) : ∃ rv data u u' R' q',
    read p = some (rv, data, u) ∧ RingFIFOBuffer.read p' = some (rv, data, u') ∧
      Alike u u' R' q' := by
  cases q with
  | nil => exact ⟨_, _, p, p', R, [], h.left.read_empty, h.right.read_empty, h⟩
  | cons m q =>
    obtain ⟨u, hr, hptr, hu⟩ := h.left.read_cons
    obtain ⟨u', hr', hptr', hu'⟩ := h.right.read_cons
    have hresult := h.left.read_result
    have hresult' := h.right.read_result
    rw [hr] at hresult
    rw [hr'] at hresult'
    rw [h.size] at hu' hresult'
    have hsnap : u'.toSnap = u.toSnap := by
      obtain rfl : u = _ := congrArg (fun r => r.2.2) (Option.some.inj hresult)
      obtain rfl : u' = _ := congrArg (fun r => r.2.2) (Option.some.inj hresult')
      simp only [h.snap]
    exact ⟨_, _, u, u', _, q, hr, hr', hu, hu', hsnap, by rw [hptr, hptr', h.size]⟩

theorem Holds.getCapacity (h : Holds p R q) : Holds (RingFIFOBuffer.getCapacity p).2 R q := by
  change Holds (if _ then _ else _) R q
  split_ifs
  · exact ⟨h.bufferSize, h.aligned, h.lower, h.upper, h.start, h.readIndex, h.writeIndex, h.frames,
      h.occupied, h.bound, h.idle, h.lengths, h.stored⟩
  · exact h

theorem getCapacity_kept (p : Ringbuffer) : (getCapacity p).2.toSnap = p.toSnap ∧
    (getCapacity p).2.ptr = p.ptr := by
  change (if _ then _ else _ : Ringbuffer).toSnap = _ ∧ (if _ then _ else _ : Ringbuffer).ptr = _
  split_ifs
  · exact ⟨rfl, rfl⟩
  · exact ⟨rfl, rfl⟩

theorem Alike.getCapacity (h : Alike p p' R q) :
    (RingFIFOBuffer.getCapacity p').1 = (RingFIFOBuffer.getCapacity p).1 ∧
      Alike (RingFIFOBuffer.getCapacity p).2 (RingFIFOBuffer.getCapacity p').2 R q := by
  obtain ⟨hsnap, hptr⟩ := getCapacity_kept p
  obtain ⟨hsnap', hptr'⟩ := getCapacity_kept p'
  have hbytes := congrArg Snap.numberOfStoredBytes h.snap
  refine ⟨?_, h.left.getCapacity, h.right.getCapacity, ?_, ?_⟩
  · rw [h.left.getCapacity_eq, h.right.getCapacity_eq, h.size, hbytes]
  · rw [hsnap, hsnap', h.snap]
  · rw [hptr, hptr', h.size]

theorem Alike.call {r r' : Ring} (h : Alike r.ringbuf r'.ringbuf R q) {c : Call} (hc : c.Short) :
    ∃ result s s' R' q', RingFIFOBuffer.call r c = some (result, s) ∧
      RingFIFOBuffer.call r' c = some (result, s') ∧ Alike s.ringbuf s'.ringbuf R' q' := by
  cases c with
  | write data length =>
    obtain ⟨rv, u, u', q', hw, hw', halike⟩ := h.write data hc
    exact ⟨(rv, []), { r with ringbuf := u }, { r' with ringbuf := u' }, R, q',
      by simp [RingFIFOBuffer.call, hw], by simp [RingFIFOBuffer.call, hw'], halike⟩
  | read =>
    obtain ⟨rv, data, u, u', R', q', hr, hr', halike⟩ := h.read
    exact ⟨(rv, data), { r with ringbuf := u }, { r' with ringbuf := u' }, R', q',
      by simp [RingFIFOBuffer.call, hr], by simp [RingFIFOBuffer.call, hr'], halike⟩
  | getCapacity =>
    obtain ⟨hcapacity, halike⟩ := h.getCapacity
    exact ⟨_, _, { r' with ringbuf := (RingFIFOBuffer.getCapacity r'.ringbuf).2 }, R, q, rfl,
      by rw [← hcapacity]; rfl, halike⟩
  | snap => exact ⟨_, _, _, R, q, rfl, rfl, h⟩
  | abandon ws =>
    obtain ⟨s, hs, ha⟩ := h.left.abandon hc
    obtain ⟨s', hs', ha'⟩ := Holds.abandon (r := r') h.right hc
    refine ⟨(0, []), discard s, discard s', R, q, by simp [RingFIFOBuffer.call, hs],
      by simp [RingFIFOBuffer.call, hs'], ha.right, ha'.right, ?_, ?_⟩
    · rw [ha.snap, ha'.snap, h.snap]
    · rw [ha.size, ha'.size, h.size]

theorem Alike.observe {r r' : Ring} (h : Alike r.ringbuf r'.ringbuf R q) {cs : List Call}
    (hcs : ∀ c ∈ cs, c.Short) : ∃ results, RingFIFOBuffer.observe r cs = some results ∧
      RingFIFOBuffer.observe r' cs = some results := by
  induction cs generalizing r r' R q with
  | nil => exact ⟨[], rfl, rfl⟩
  | cons c cs ih =>
    obtain ⟨result, s, s', R', q', hs, hs', halike⟩ := h.call (hcs c (by simp))
    obtain ⟨results, hr, hr'⟩ := ih halike fun d hd => hcs d (List.mem_cons_of_mem c hd)
    exact ⟨result :: results, by simp [RingFIFOBuffer.observe, hs, hr],
      by simp [RingFIFOBuffer.observe, hs', hr']⟩

end Step

def CallStep (r : Ring) (e : Call × Result) (r' : Ring) : Prop :=
  e.1.Short ∧ call r e.1 = some (e.2, r')

/-- Writes between `Snap` and `Discard` leave nothing that any later calls could tell. -/
theorem discard_transaction {size : UInt64} {s : Snap} {es : List (Call × Result)} {r : Ring}
    (h1 : 64 ≤ (ringInitialize size).2.bufferSize)
    (h2 : (ringInitialize size).2.bufferSize ≤ 2 ^ 29)
    (h : Run CallStep ⟨s, (ringInitialize size).2⟩ es r) {ws : List ((Nat → UInt8) × UInt32)}
    (hws : ∀ w ∈ ws, w.2.toNat < 2 ^ 29) :
    ∃ r', writeAll (snap r) ws = some r' ∧ ∀ cs : List Call, (∀ c ∈ cs, c.Short) →
      (observe r cs).isSome ∧ observe (discard r') cs = observe r cs := by
  obtain ⟨R, q, hr⟩ := Run.invariant (fun _ r => ∃ R q, Holds r.ringbuf R q)
    ⟨0, [], holds_ringInitialize h1 h2⟩
    (by
      rintro es t e u ⟨R, q, ht⟩ ⟨hshort, hcall⟩
      have hself : Alike t.ringbuf t.ringbuf R q := ⟨ht, ht, rfl, rfl⟩
      obtain ⟨result, u', u'', R', q', heq, -, halike⟩ := hself.call hshort
      rw [hcall] at heq
      obtain ⟨-, rfl⟩ := Prod.mk.inj (Option.some.inj heq)
      exact ⟨R', q', halike.left⟩) h
  obtain ⟨r', hall, halike⟩ := hr.abandon hws
  refine ⟨r', hall, fun cs hcs => ?_⟩
  obtain ⟨results, hobserve, hobserve'⟩ := halike.observe hcs
  rw [hobserve, hobserve']
  exact ⟨rfl, rfl⟩

theorem discard_transaction_one_write : ∃ r', writeAll (snap ⟨default, (ringInitialize 256).2⟩)
    [(fun _ => 7, 60)] = some r' ∧ observe (discard r') [.read, .write (fun _ => 8) 5, .read] =
      observe ⟨default, (ringInitialize 256).2⟩ [.read, .write (fun _ => 8) 5, .read] := by
  obtain ⟨r', hall, hobserve⟩ := discard_transaction (s := default)
    (show 64 ≤ (ringInitialize 256).2.bufferSize by decide +kernel) (by decide +kernel) .nil
    (show ∀ w ∈ [((fun _ => 7 : Nat → UInt8), (60 : UInt32))], w.2.toNat < 2 ^ 29 by simp)
  refine ⟨r', hall, (hobserve _ ?_).2⟩
  simp [Call.Short]

end UdpSm.RingFIFOBuffer
