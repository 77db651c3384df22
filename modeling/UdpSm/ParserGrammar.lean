import UdpSm.ParserFrame
import UdpSm.RingRefinement

/-! The frames that the parser accepts, as a grammar over the bytes of the frame alone. -/
namespace UdpSm.ParserImplementation
open Lib RingFIFOBuffer

/-- A message with its length field, as it stands in a frame. -/
structure Block (b : List UInt8) : Prop where
  length : b.length = 2 + ofBe (b.take 2)
  headerLength : ∃ h, b[2]? = some h ∧ (h = 28 ∨ h = 32) ∧ 2 + h.toNat ≤ b.length
  headerVersion : b[3]? = some 1

/-- A frame header followed by exactly these blocks. -/
structure Grammar (F : List UInt8) (blocks : List (List UInt8)) : Prop where
  messageHeaderLength : F[1]? = some 18
  messageCount : ofBe ((F.drop 18).take 2) = blocks.length
  nonempty : 1 ≤ blocks.length
  split : F.drop 20 = blocks.flatten
  blocks : ∀ b ∈ blocks, Block b

/-! Frames written out from their fields. -/

def frameOf (messageType : UInt8) (sessionIdVal : List UInt8) (sequenceNumber : Nat)
    (blocks : List (List UInt8)) : List UInt8 :=
  [messageType, 18] ++ sessionIdVal ++ beBytes 8 sequenceNumber ++ beBytes 2 blocks.length ++
    blocks.flatten

def emptyBlock : List UInt8 := [0, 28, 28, 1] ++ List.replicate 26 0

theorem block_emptyBlock : Block emptyBlock :=
  ⟨by decide, ⟨28, rfl, .inl rfl, by decide⟩, rfl⟩

theorem grammar_frameOf (messageType : UInt8) {sessionIdVal : List UInt8} (sequenceNumber : Nat)
    {blocks : List (List UInt8)} (hs : sessionIdVal.length = 8) (h1 : 1 ≤ blocks.length)
    (hcount : blocks.length < 65536) (hblocks : ∀ b ∈ blocks, Block b) :
    Grammar (frameOf messageType sessionIdVal sequenceNumber blocks) blocks := by
  have hhead : ([messageType, 18] ++ sessionIdVal ++ beBytes 8 sequenceNumber).length = 18 := by
    simp [hs]
  refine ⟨rfl, ?_, h1, ?_, hblocks⟩
  · rw [frameOf, List.append_assoc, List.drop_left' hhead, List.take_left' (beBytes_length 2 _)]
    exact ofBe_beBytes_of_lt hcount
  · rw [frameOf, List.drop_left' (by rw [List.length_append, hhead, beBytes_length])]

def oneMessageFrame : List UInt8 := frameOf 0 (List.replicate 8 0) 1 [emptyBlock]

section Bytes
variable {F b rest : List UInt8} {buffer : Nat → UInt8} {o : Nat}

theorem overwrite_drop (buffer : Nat → UInt8) (h : F.drop o = b ++ rest) {i : Nat} (hi : i < b.length) :
    b[i]? = some (overwrite F buffer (o + i)) := by
  have hF : F[o + i]? = b[i]? := by
    rw [← List.getElem?_drop, h, List.getElem?_append_left hi]
  rw [overwrite, hF, List.getElem?_eq_getElem hi]
  rfl

theorem slice_overwrite (buffer : Nat → UInt8) (h : F.drop o = b ++ rest) :
    slice (overwrite F buffer) (o, b.length) = b := by
  apply List.ext_getElem (by simp [slice])
  intro i _ hi
  have hb := overwrite_drop buffer h hi
  rw [List.getElem?_eq_getElem hi] at hb
  simpa [slice] using (Option.some.inj hb).symm

theorem declared_take (buffer : Nat → UInt8) (h : F.drop o = b ++ rest) (hb : 2 ≤ b.length) :
    declared (overwrite F buffer) o = 2 + ofBe (b.take 2) := by
  have h0 := overwrite_drop buffer h (i := 0) (by omega)
  have h1 := overwrite_drop buffer h (i := 1) (by omega)
  match b, hb, h0, h1 with
  | b0 :: b1 :: bs, _, h0, h1 =>
    simp only [List.getElem?_cons_zero, List.getElem?_cons_succ, Option.some.injEq] at h0 h1
    rw [declared, ← h1]
    simp [h0]

/-- The checks of a header in place are those of a block, once the block ends inside the frame. -/
theorem goodHeader_iff (h : F.drop o = b ++ rest) (hb : b.length = declared (overwrite F buffer) o)
    (ho : 20 ≤ o) : GoodHeader (overwrite F buffer) F.length o ↔ Block b := by
  have hbounds := declared_bounds (overwrite F buffer) o
  have htake := declared_take buffer h (by omega)
  have hlen : o + b.length ≤ F.length := by
    have hsum := congrArg List.length h
    rw [List.length_drop, List.length_append] at hsum
    omega
  have hfield := fun i (hi : i < b.length) => overwrite_drop buffer h hi
  constructor
  · rintro ⟨hl, -, hk, hv⟩
    have h28 : 28 ≤ (headerLength (overwrite F buffer) o).toNat := by
      cases hk with
      | inl h32 => rw [h32]; decide
      | inr h28 => rw [h28]; decide
    refine ⟨by omega, ⟨_, hfield 2 (by omega), hk.symm, ?_⟩, ?_⟩
    · rw [hb]
      exact hl
    · rw [hfield 3 (by omega)]
      exact congrArg some hv
  · rintro ⟨-, ⟨k, hk, hkinds, hl⟩, hv⟩
    have h4 : 3 < b.length := (List.getElem?_eq_some_iff.mp hv).1
    rw [hfield 2 (by omega)] at hk
    rw [hfield 3 h4] at hv
    refine ⟨?_, by omega, ?_, Option.some.inj hv⟩
    · rw [headerLength, Option.some.inj hk]
      omega
    · rw [headerLength, Option.some.inj hk]
      exact hkinds.symm

end Bytes

/-! The walk and the split. -/

theorem GoodBlocks.le {f : Nat → UInt8} {n count o : Nat} (h : GoodBlocks f n count o) : o ≤ n := by
  induction count generalizing o with
  | zero => exact Nat.le_of_eq h
  | succ count ih => exact Nat.le_trans (Nat.le_add_right _ _) (ih h.2)

theorem walk_good {f : Nat → UInt8} {n o : Nat} (h : GoodHeader f n o) (count : Nat) :
    (walk false f n (count + 1) o).map (slice f) =
      slice f (o, declared f o) :: (walk false f n count (o + declared f o)).map (slice f) := by
  simp [walk, block, h]

section Split
variable {F : List UInt8} {buffer : Nat → UInt8} {count o : Nat}

theorem goodBlocks_split (h : GoodBlocks (overwrite F buffer) F.length count o) (ho : 20 ≤ o) :
    let blocks := (walk false (overwrite F buffer) F.length count o).map (slice (overwrite F buffer))
    blocks.length = count ∧ F.drop o = blocks.flatten ∧ ∀ b ∈ blocks, Block b := by
  induction count generalizing o with
  | zero =>
    obtain rfl : o = F.length := h
    simp [walk]
  | succ count ih =>
    have hend := h.2.le
    have hdrop : F.drop o = (F.drop o).take (declared (overwrite F buffer) o) ++
        F.drop (o + declared (overwrite F buffer) o) := by
      rw [← List.drop_drop, List.take_append_drop]
    have hlen : ((F.drop o).take (declared (overwrite F buffer) o)).length =
        declared (overwrite F buffer) o := by
      rw [List.length_take, List.length_drop]
      omega
    have hslice := slice_overwrite buffer hdrop
    rw [hlen] at hslice
    obtain ⟨hcount, hsplit, hblocks⟩ := ih h.2 (by omega)
    rw [walk_good h.1, hslice]
    refine ⟨by simpa using hcount, ?_, ?_⟩
    · rw [List.flatten_cons, ← hsplit]
      exact hdrop
    · intro b hb
      cases hb with
      | head => exact (goodHeader_iff hdrop hlen ho).mp h.1
      | tail _ hb => exact hblocks b hb

theorem split_goodBlocks {blocks : List (List UInt8)} (hcount : blocks.length = count)
    (hsplit : F.drop o = blocks.flatten) (hblocks : ∀ b ∈ blocks, Block b) (ho : 20 ≤ o)
    (hend : o ≤ F.length) :
    GoodBlocks (overwrite F buffer) F.length count o ∧
      (walk false (overwrite F buffer) F.length count o).map (slice (overwrite F buffer)) =
        blocks := by
  induction blocks generalizing count o with
  | nil =>
    subst hcount
    have hall : F.length ≤ o := List.drop_eq_nil_iff.mp hsplit
    exact ⟨Nat.le_antisymm hend hall, rfl⟩
  | cons b blocks ih =>
    subst hcount
    have hb := hblocks b (by simp)
    have h4 : 3 < b.length := (List.getElem?_eq_some_iff.mp hb.headerVersion).1
    have hdeclared := declared_take buffer hsplit (by omega)
    rw [← hb.length] at hdeclared
    have hlen : o + b.length ≤ F.length := by
      have hsum := congrArg List.length hsplit
      rw [List.length_drop, List.flatten_cons, List.length_append] at hsum
      omega
    have hrest : F.drop (o + b.length) = blocks.flatten := by
      rw [← List.drop_drop, hsplit, List.flatten_cons, List.drop_left]
    obtain ⟨hgood, hwalk⟩ := ih rfl hrest (fun c hc => hblocks c (List.mem_cons_of_mem b hc))
      (by omega) hlen
    have hheader := (goodHeader_iff hsplit hdeclared.symm ho).mpr hb
    rw [List.length_cons, walk_good hheader, hdeclared, slice_overwrite buffer hsplit, hwalk]
    refine ⟨⟨hheader, ?_⟩, rfl⟩
    rwa [hdeclared]

end Split

section Frame
variable {F : List UInt8} {blocks : List (List UInt8)} {buffer : Nat → UInt8}

theorem header_fields (buffer : Nat → UInt8) (hn : 36 ≤ F.length) :
    F[1]? = some (messageHeaderLength (overwrite F buffer)) ∧
      ofBe ((F.drop 18).take 2) = count (overwrite F buffer) := by
  have h1 : F.drop 0 = F ++ [] := by simp
  have h18 : F.drop 18 = (F.drop 18).take 2 ++ F.drop 20 := by
    exact (List.drop_drop ▸ List.take_append_drop 2 (F.drop 18)).symm
  have hlen : ((F.drop 18).take 2).length = 2 := by
    rw [List.length_take, List.length_drop]
    omega
  have hslice := slice_overwrite buffer h18
  rw [hlen] at hslice
  refine ⟨overwrite_drop buffer (o := 0) h1 (by omega), ?_⟩
  rw [← hslice]
  rfl

theorem Grammar.good (h : Grammar F blocks) (buffer : Nat → UInt8) (hn : 36 ≤ F.length) :
    HeaderOk (overwrite F buffer) ∧
      GoodBlocks (overwrite F buffer) F.length (count (overwrite F buffer)) 20 ∧
      (walk false (overwrite F buffer) F.length (count (overwrite F buffer)) 20).map
        (slice (overwrite F buffer)) = blocks := by
  obtain ⟨h1, hcount⟩ := header_fields buffer hn
  rw [h.messageHeaderLength] at h1
  rw [h.messageCount] at hcount
  exact ⟨⟨(Option.some.inj h1).symm, hcount ▸ h.nonempty⟩,
    split_goodBlocks hcount h.split h.blocks (Nat.le_refl 20) (by omega)⟩

theorem grammar_of_good (hn : 36 ≤ F.length) (hf : HeaderOk (overwrite F buffer))
    (h : GoodBlocks (overwrite F buffer) F.length (count (overwrite F buffer)) 20) :
    ∃ blocks, Grammar F blocks := by
  obtain ⟨h1, hcount⟩ := header_fields buffer hn
  obtain ⟨hlength, hsplit, hblocks⟩ := goodBlocks_split h (Nat.le_refl 20)
  exact ⟨_, h1.trans (congrArg some hf.1), hcount.trans hlength.symm, by rw [hlength]; exact hf.2,
    hsplit, hblocks⟩

end Frame

/-! The parser and the grammar. -/
section Parser
variable {x x' : Context} {F : List UInt8} {ring0 : Ringbuffer} {R : Nat} {q : List (List UInt8)}

def payload (timing : Bool) (F : List UInt8) : List UInt8 := F.take (frameLength timing F.length)

theorem payload_length (timing : Bool) (F : List UInt8) :
    (payload timing F).length = frameLength timing F.length := by
  rw [payload, List.length_take, frameLength]
  split_ifs <;> omega

theorem overwrite_take (F : List UInt8) (k : Nat) (buffer : Nat → UInt8) :
    overwrite (F.take k) (overwrite F buffer) = overwrite F buffer := by
  funext i
  rw [overwrite, List.getElem?_take]
  split_ifs
  · cases hF : F[i]? with
    | none => rfl
    | some b => rw [Option.getD_some, overwrite, hF, Option.getD_some]
  · rfl

/-- A frame is good exactly when it is of the grammar, whatever lies behind it in the buffer. -/
theorem good_iff_grammar (x : Context) (ring0 : Ringbuffer) (hn : F.length < 2 ^ 29)
    (h36 : 36 ≤ frameLength (x.common.flag flagGetTiming) F.length) :
    HeaderOk (overwrite F x.parser.parserReceivedDataPtr) ∧ Good (received x F ring0) ↔
      ∃ blocks, Grammar (payload (x.common.flag flagGetTiming) F) blocks := by
  have hlen := payload_length (x.common.flag flagGetTiming) F
  have htake := overwrite_take F (frameLength (x.common.flag flagGetTiming) F.length)
    x.parser.parserReceivedDataPtr
  rw [Good, received_length _ _ hn, ← hlen]
  change HeaderOk (overwrite F _) ∧ GoodBlocks (overwrite F _) _ (count (overwrite F _)) 20 ↔ _
  rw [← htake]
  constructor
  · intro h
    exact grammar_of_good (by rwa [hlen]) h.1 h.2
  · rintro ⟨blocks, h⟩
    obtain ⟨h1, h2, -⟩ := h.good (overwrite F x.parser.parserReceivedDataPtr)
      (by rwa [hlen])
    exact ⟨h1, h2⟩

theorem payload_untimed (F : List UInt8) : payload false F = F := by
  rw [payload, frameLength_untimed, List.take_length]

theorem Grammar.frameBlocks_eq {blocks : List (List UInt8)} (h : Grammar F blocks)
    (hn : F.length < 2 ^ 29) (h36 : 36 ≤ F.length) (htiming : x.common.flag flagGetTiming = false) :
    frameBlocks (received x F ring0) = blocks := by
  obtain ⟨-, -, hblocks⟩ := h.good x.parser.parserReceivedDataPtr h36
  have hlen := received_length x ring0 hn
  rw [htiming, frameLength_untimed] at hlen
  rw [frameBlocks, frameWalk, hlen, ← hblocks, ← htiming]
  rfl

/-- The parser accepts exactly the grammar, all or nothing. -/
theorem accepts_grammar (hrun : Running x) (htiming : x.common.flag flagGetTiming = false)
    (hread : read x.ring0 = some ((F.length : Int), F, ring0)) (hmin : 36 ≤ F.length)
    (hmax : F.length ≤ 9000) (hring : Holds x.ring1.ringbuf R q)
    (hsession : ¬Foreign (received x F ring0)) (hok : (iterateInternal x).2 = .ok x') :
    (contents x'.ring1.ringbuf ≠ contents x.ring1.ringbuf ↔ ∃ blocks, Grammar F blocks) ∧
    (∀ blocks, Grammar F blocks →
      contents x'.ring1.ringbuf = contents x.ring1.ringbuf ++ blocks) ∧
    ((¬∃ blocks, Grammar F blocks) →
      contents x'.ring1.ringbuf = contents x.ring1.ringbuf) := by
  have hn : F.length < 2 ^ 29 := by omega
  have hlen : frameLength (x.common.flag flagGetTiming) F.length = F.length := by
    simp [htiming, frameLength]
  have hgrammar := good_iff_grammar x ring0 hn (by rwa [hlen])
  rw [htiming, payload_untimed] at hgrammar
  have haccepted : Accepted (received x F ring0) ↔ ∃ blocks, Grammar F blocks := by
    rw [← hgrammar, Accepted, Parsed, received_length _ _ hn, hlen]
    tauto
  have htaken := iterateInternal_taken hrun hread (by omega) hn hring hok
  have hqueue := (htaken.holds hring).contents_eq
  rw [hqueue, hring.contents_eq]
  have happended : ∀ blocks, Grammar F blocks →
      (if Accepted (received x F ring0) then q ++ frameBlocks (received x F ring0) else q) =
        q ++ blocks := by
    intro blocks h
    rw [if_pos (haccepted.mpr ⟨blocks, h⟩), h.frameBlocks_eq hn hmin htiming]
  refine ⟨⟨fun hne => ?_, ?_⟩, happended, fun hno => ?_⟩
  · by_contra hno
    exact hne (if_neg (mt haccepted.mp hno))
  · rintro ⟨blocks, h⟩
    have hpos : blocks ≠ [] := List.length_pos_iff.mp h.nonempty
    rw [happended blocks h]
    simpa using hpos
  · exact if_neg (mt haccepted.mp hno)

end Parser

section OneMessage
variable {ring0 ring0' ring1 : Ringbuffer}

theorem oneMessage_walk :
    frameWalk (received (startup ring0 ring1) oneMessageFrame ring0') = [(20, 30)] := by
  rw [startup_walk (by decide)]
  decide +kernel

theorem oneMessage_room : Room (received (startup ring0 (ringInitialize ringBufferSize).2)
    oneMessageFrame ring0') (queueEnd (ringInitialize ringBufferSize).2.ptr.size 0 []) := by
  rw [Room, oneMessage_walk]
  exact (by decide +kernel : (advanceAll (ringInitialize ringBufferSize).2.ptr.size
    (queueEnd (ringInitialize ringBufferSize).2.ptr.size 0 []) (sizesOf [(20, 30)]) : Int) ≤
      writeLimit (ringInitialize ringBufferSize).2
        (queueEnd (ringInitialize ringBufferSize).2.ptr.size 0 []))

end OneMessage

theorem accepts_grammar_one_message : ∃ x x' ring0,
    read x.ring0 = some ((oneMessageFrame.length : Int), oneMessageFrame, ring0) ∧
    (iterateInternal x).2 = .ok x' ∧
    contents x'.ring1.ringbuf = contents x.ring1.ringbuf ++ [emptyBlock] := by
  obtain ⟨ring0, ring0', hread⟩ := exists_frame (F := oneMessageFrame) (by decide) (by decide)
  have hgrammar : Grammar oneMessageFrame [emptyBlock] :=
    grammar_frameOf 0 1 (by simp) (by simp) (by simp) (by simp [block_emptyBlock])
  have hforeign : ¬Foreign (received (startup ring0 (ringInitialize ringBufferSize).2)
      oneMessageFrame ring0') := startup_not_foreign
  obtain ⟨x', hok⟩ := (iterateInternal_returns
    (x := startup ring0 (ringInitialize ringBufferSize).2) ⟨rfl, rfl⟩ hread (by decide) (by decide)
    holds_initial).mpr fun _ => oneMessage_room
  exact ⟨_, x', ring0', hread, hok, (accepts_grammar ⟨rfl, rfl⟩ (startup_timing _ _) hread
    (by decide) (by decide) holds_initial hforeign hok).2.1 _ hgrammar⟩

end UdpSm.ParserImplementation
