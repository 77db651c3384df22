import UdpSm.ParserCapacity

/-! Which bytes of the receive buffer the parser touches for a frame. -/
namespace UdpSm.ParserImplementation
open Lib RingFIFOBuffer

/-- How far the header fields that are looked at reach from the start of the block. -/
def inspected (c : CommonData) (f : Nat → UInt8) (messageCounter : UInt16) (o : Nat) : Nat :=
  if c.flag flagShowParser ∧ (messageCounter.toNat : Int) > c.configThreshold then
    if headerLength f o = 32 then 34 else 26
  else 4

def blockEnd (c : CommonData) (f : Nat → UInt8) (messageCounter : UInt16) (a : Access) : Nat :=
  a.1 + max (inspected c f messageCounter a.1) a.2

theorem accesses_within (c : CommonData) (f : Nat → UInt8) (messageCounter : UInt16) (a : Access)
    (n : Nat) : (∀ b ∈ accesses c f messageCounter a, b.1 + b.2 ≤ n) ↔
      blockEnd c f messageCounter a ≤ n := by
  unfold accesses inspect blockEnd inspected
  split_ifs <;>
    simp only [List.forall_mem_append, List.forall_mem_cons, List.not_mem_nil, false_imp_iff,
      implies_true, and_true, List.append_nil] <;> omega

section Walk
variable {c : CommonData} {f : Nat → UInt8} {messageCounter : UInt16} {timing : Bool} {n : Nat}

theorem GoodHeader.inspected_le {o : Nat} (h : GoodHeader f n o) (c : CommonData)
    (messageCounter : UInt16) :
    inspected c f messageCounter o ≤ declared f o := by
  obtain ⟨hl, -, hk, -⟩ := h
  unfold inspected
  by_cases h32 : headerLength f o = 32
  · have hl32 : 2 + 32 ≤ declared f o := by rwa [h32] at hl
    split_ifs <;> omega
  · have h28 : headerLength f o = 28 := hk.resolve_left h32
    have hl28 : 2 + 28 ≤ declared f o := by rwa [h28] at hl
    split_ifs <;> omega

theorem blockEnd_le_last {size : Nat} {limit : Int} {w count o : Nat} {l : Access}
    (hl : l ∈ (reached size limit w (walk timing f n count o)).getLast?) :
    ∀ a ∈ reached size limit w (walk timing f n count o),
      blockEnd c f messageCounter a ≤ blockEnd c f messageCounter l := by
  induction count generalizing w o with
  | zero => simp [walk, reached] at hl
  | succ count ih =>
    rw [walk, reached] at hl ⊢
    intro a ha
    by_cases hgo : (advance size w (padded (block timing f n (count = 0) o).2) : Int) ≤ limit ∧
        GoodHeader f n o ∧ count ≠ 0
    · obtain ⟨hroom, hgood, hcount⟩ := hgo
      rw [if_pos hroom, if_pos hgood] at hl ha
      obtain ⟨count, rfl⟩ := Nat.exists_eq_succ_of_ne_zero hcount
      have hnext : block timing f n (count = 0) (o + declared f o) ∈
          reached size limit (advance size w (padded (block timing f n (count + 1 = 0) o).2))
            (walk timing f n (count + 1) (o + declared f o)) := by
        simp [walk, reached]
      have hne := List.ne_nil_of_mem hnext
      rw [List.getLast?_cons_of_ne_nil hne] at hl
      have hrest := ih hl
      cases ha with
      | tail _ ha => exact hrest a ha
      | head =>
        have hfirst := hrest _ hnext
        have hinspected := hgood.inspected_le c messageCounter
        have hsize : block timing f n (count + 1 = 0) o = (o, declared f o) := by simp [block]
        rw [hsize]
        refine Nat.le_trans ?_ hfirst
        unfold blockEnd
        simp only [block]
        omega
    · have hlast : (if (advance size w (padded (block timing f n (count = 0) o).2) : Int) ≤ limit then
          reached size limit (advance size w (padded (block timing f n (count = 0) o).2))
            (if GoodHeader f n o then walk timing f n count (o + declared f o) else [])
          else []) = [] := by
        split_ifs with hroom hgood
        · have hcount : count = 0 := by
            by_contra hcount
            exact hgo ⟨hroom, hgood, hcount⟩
          subst hcount
          rfl
        · rfl
        · rfl
      rw [hlast] at hl ha
      obtain rfl := List.mem_singleton.mp ha
      obtain rfl : _ = l := by simpa using hl
      exact Nat.le_refl _

end Walk

section Call
variable {x : Context} {F : List UInt8} {ring0 : Ringbuffer} {R : Nat} {q : List (List UInt8)}

/-- The last block of the frame that the loop looks at, refused or not. -/
def lastReached (x : Context) : Option Access :=
  (reached x.ring1.ringbuf.ptr.size
    (x.ring1.ringbuf.writeIndex + (getCapacity x.ring1.ringbuf).1)
    x.ring1.ringbuf.writeIndex.toNat (frameWalk x)).getLast?

theorem reached_mul_add (size k : Nat) (limit : Int) (w : Nat) (as : List Access) :
    reached size (size * k + limit) (size * k + w) as = reached size limit w as := by
  induction as generalizing w with
  | nil => rfl
  | cons a as ih =>
    rw [reached, reached, advance_mul_add, ih]
    have hiff : ((size * k + advance size w (padded a.2) : Nat) : Int) ≤ size * k + limit ↔
        (advance size w (padded a.2) : Int) ≤ limit := by
      push_cast
      omega
    simp only [hiff]

theorem lastReached_eq (h : Holds x.ring1.ringbuf R q) : lastReached x =
    (reached x.ring1.ringbuf.ptr.size
      (writeLimit x.ring1.ringbuf (queueEnd x.ring1.ringbuf.ptr.size R q))
      (queueEnd x.ring1.ringbuf.ptr.size R q) (frameWalk x)).getLast? := by
  have hdiv := Nat.div_add_mod (queueEnd x.ring1.ringbuf.ptr.size R q) x.ring1.ringbuf.ptr.size
  have hlimit : writeLimit x.ring1.ringbuf (queueEnd x.ring1.ringbuf.ptr.size R q) =
      x.ring1.ringbuf.ptr.size *
        (queueEnd x.ring1.ringbuf.ptr.size R q / x.ring1.ringbuf.ptr.size : Nat) +
      (x.ring1.ringbuf.writeIndex + (getCapacity x.ring1.ringbuf).1) := by
    have hdiv' := congrArg (Nat.cast (R := Int)) hdiv
    rw [Nat.cast_add, Nat.cast_mul] at hdiv'
    rw [writeLimit, h.getCapacity_eq, h.writeIndex]
    omega
  have hshift := reached_mul_add x.ring1.ringbuf.ptr.size
    (queueEnd x.ring1.ringbuf.ptr.size R q / x.ring1.ringbuf.ptr.size)
    (x.ring1.ringbuf.writeIndex + (getCapacity x.ring1.ringbuf).1)
    x.ring1.ringbuf.writeIndex.toNat (frameWalk x)
  rw [← hlimit, h.writeIndex, Int.toNat_natCast, hdiv] at hshift
  rw [hshift, lastReached, h.writeIndex, Int.toNat_natCast]

/-- The parser stays within the frame exactly when the last block that it reaches does. -/
theorem accesses_within_iff (hrun : Running x)
    (hread : read x.ring0 = some ((F.length : Int), F, ring0)) (h1 : 1 ≤ F.length)
    (hn : F.length ≤ 9008) (h : Holds x.ring1.ringbuf R q) :
    (∀ a ∈ (iterateInternal x).1, a.1 + a.2 ≤ F.length) ↔ (Parsed (received x F ring0) →
      ∀ a ∈ lastReached (received x F ring0), blockEnd x.common
        (overwrite F x.parser.parserReceivedDataPtr)
        (ntohs (messageCount (overwrite F x.parser.parserReceivedDataPtr))) a ≤ F.length) := by
  rw [iterateInternal_accesses hrun hread h1 (by omega) h,
    lastReached_eq (x := received x F ring0) h]
  by_cases hp : Parsed (received x F ring0)
  · rw [if_pos hp]
    simp only [List.forall_mem_flatMap, accesses_within, hp, true_imp_iff]
    constructor
    · intro hall a ha
      exact hall a (List.mem_of_getLast? ha)
    · intro hlast a ha
      have hl := List.getLast?_eq_some_getLast (List.ne_nil_of_mem ha)
      exact Nat.le_trans (blockEnd_le_last hl a ha) (hlast _ hl)
  · simp [hp]

end Call

theorem accesses_within_one_message : ∃ x ring0,
    read x.ring0 = some ((oneMessageFrame.length : Int), oneMessageFrame, ring0) ∧
    ∀ a ∈ (iterateInternal x).1, a.1 + a.2 ≤ oneMessageFrame.length := by
  obtain ⟨ring0, ring0', hread⟩ := exists_frame (F := oneMessageFrame) (by decide) (by decide)
  refine ⟨startup ring0 (ringInitialize ringBufferSize).2, ring0', hread,
    (accesses_within_iff ⟨rfl, rfl⟩ hread (by decide) (by decide) holds_initial).mpr ?_⟩
  intro _ a ha
  rw [lastReached, oneMessage_walk] at ha
  obtain rfl : (20, 30) = a := by simpa [reached] using ha
  exact (by decide +kernel : blockEnd connected (overwrite oneMessageFrame blankBuffer)
    (ntohs (messageCount (overwrite oneMessageFrame blankBuffer))) (20, 30) ≤ oneMessageFrame.length)

theorem oversized_access : ∃ x ring0,
    read x.ring0 = some ((oversizedFrame.length : Int), oversizedFrame, ring0) ∧
    (20, 65537) ∈ (iterateInternal x).1 ∧ oversizedFrame.length < dataBufferSize ∧
    dataBufferSize < 20 + 65537 := by
  obtain ⟨ring0, ring0', hread⟩ := exists_frame (F := oversizedFrame) (by decide) (by decide)
  refine ⟨startup ring0 (ringInitialize ringBufferSize).2, ring0', hread, ?_, by decide, by decide⟩
  rw [iterateInternal_accesses ⟨rfl, rfl⟩ hread (by decide) (by decide) holds_initial,
    if_pos oversized_parsed, oversized_walk]
  simp [reached, accesses]

end UdpSm.ParserImplementation
