import UdpSm.PipelineSession

/-! The sequence numbers of the records, next to those of the frames. -/
namespace UdpSm.ParserImplementation
open Lib

def sequenceNumberOf (F : List UInt8) : UInt64 := UInt64.ofNat (ofBe ((F.drop 10).take 8))

theorem ntoh64_sequenceNumber {F : List UInt8} (h : 18 ≤ F.length) (buffer : Nat → UInt8) :
    ntoh64 (sequenceNumber (overwrite F buffer)) = sequenceNumberOf F := by
  have hsplit : F.drop 10 = (F.drop 10).take 8 ++ F.drop 18 := by
    exact (List.drop_drop ▸ List.take_append_drop 8 (F.drop 10)).symm
  have hlen : ((F.drop 10).take 8).length = 8 := by
    rw [List.length_take, List.length_drop]
    omega
  have hslice := slice_overwrite buffer hsplit
  rw [hlen] at hslice
  have hbytes := leBytes_ofLe ((F.drop 10).take 8)
  have hlt := ofLe_lt ((F.drop 10).take 8)
  rw [hlen] at hbytes hlt
  have hload : sequenceNumber (overwrite F buffer) = UInt64.ofNat (ofLe ((F.drop 10).take 8)) := by
    rw [← hslice]
    rfl
  apply UInt64.toNat_inj.mp
  change (hton64 (sequenceNumber (overwrite F buffer))).toNat = _
  rw [hton64_toNat, hload, UInt64.toNat_ofNat', Nat.mod_eq_of_lt (by norm_num at hlt ⊢; exact hlt), hbytes,
    sequenceNumberOf, UInt64.toNat_ofNat', Nat.mod_eq_of_lt]
  have hbe := ofBe_lt ((F.drop 10).take 8)
  rw [hlen] at hbe
  norm_num at hbe ⊢
  exact hbe

end UdpSm.ParserImplementation

namespace UdpSm.Pipeline
open Lib RingFIFOBuffer InserterImplementation
open ParserImplementation hiding iterate Context constructed
open NetworkReceiverImplementationEFVI (packetEvent)

/-- The blocks that a call queues, with the number of the frame that delivers them. -/
def Call.labelled (c : Call) : List (UInt64 × List UInt8) :=
  c.taken.flatMap fun F => (blocksFor c.before.context F).map fun b => (sequenceNumberOf F, b)

def Call.delivered (c : Call) : List (Append × List UInt8) := c.published.zip c.consumed

def labelled (cs : List Call) : List (UInt64 × List UInt8) := cs.flatMap Call.labelled
def delivered (cs : List Call) : List (Append × List UInt8) := cs.flatMap Call.delivered

section Step
variable {u : Unset} {cs : List Call} {s s' : System} {c : Call}

theorem published_length (c : Call) : c.published.length = c.consumed.length := by
  obtain ⟨before, action⟩ := c
  cases action with
  | insert now => rw [Call.published, Call.consumed, List.length_map]
  | _ => rfl

theorem delivered_fst (cs : List Call) : (delivered cs).map Prod.fst = published cs := by
  rw [delivered, published, List.map_flatMap]
  refine List.flatMap_congr fun c _ => ?_
  exact List.map_fst_zip (Nat.le_of_eq (published_length c))

/-- The shared number changes with an accepted frame only, to that of the frame. -/
theorem parse_sequence (hnext : Next s .parse s') :
    s'.common.commonValueSequenceNumber = s.common.commonValueSequenceNumber ∧
        Call.queued ⟨s, .parse⟩ = [] ∧ Call.labelled ⟨s, .parse⟩ = [] ∨
    ∃ F, takenFrame s.context = some F ∧ Accepted (s.arrived F) ∧
      s'.common.commonValueSequenceNumber = sequenceNumberOf F ∧
      Call.labelled ⟨s, .parse⟩ = (Call.queued ⟨s, .parse⟩).map fun b => (sequenceNumberOf F, b) := by
  cases hnext with
  | parse R x ht =>
    cases ht with
    | idle hnone d n p hsnap hptr =>
      exact .inl ⟨rfl, Call.queued_none hnone, by simp [Call.labelled, Call.taken_none hnone]⟩
    | frame F ring0 hsome hrun hcapacity hlength hframes hring ht =>
      have hsequence := ht.kept.2.2.2.2.2.2.2
      have hqueued : Call.queued ⟨s, .parse⟩ = blocksFor s.context F := Call.queued_some hsome
      have hlabelled : Call.labelled ⟨s, .parse⟩ =
          (blocksFor s.context F).map fun b => (sequenceNumberOf F, b) := by
        simp [Call.labelled, Call.taken_some hsome]
      by_cases ha : Accepted (s.arrived F)
      · have h36 : 36 ≤ frameLength (s.context.common.flag flagGetTiming) F.length := by
          rw [← received_length s.context s.context.ring0 hlength]
          exact ha.1.1
        have hle := frameLength_le (s.context.common.flag flagGetTiming) F.length
        have hnumber := hsequence.trans (if_pos ha)
        refine .inr ⟨F, hsome, ha, hnumber.trans (ntoh64_sequenceNumber (by omega) _), ?_⟩
        rw [hlabelled, hqueued]
      · have hblocks : blocksFor s.context F = [] := if_neg ha
        exact .inl ⟨hsequence.trans (if_neg ha), by rw [hqueued, hblocks], by rw [hlabelled, hblocks]; rfl⟩

theorem mem_accepted (hwell : Well s) (hok : perform s .parse = .ok s') {F : List UInt8}
    (hF : takenFrame s.context = some F) (ha : Accepted (s.arrived F)) :
    F ∈ Call.accepted ⟨s, .parse⟩ := by
  rw [accepted_eq (c := ⟨s, .parse⟩) hwell hok, List.mem_filter]
  exact ⟨by simp [Call.taken_some hF], decide_eq_true ha⟩

/-- The frames of a call each find ring buffer 1 empty, or the number they bring already there. -/
def Call.InStep (c : Call) : Prop := ∀ F ∈ c.accepted, c.before.messages = [] ∨
  sequenceNumberOf F = c.before.common.commonValueSequenceNumber

def Numbered (cs : List Call) (s : System) : Prop :=
  ((delivered cs).map fun d => (d.1.sequenceNumber, d.2)) ++
    s.messages.map (fun m => (s.common.commonValueSequenceNumber, m)) = labelled cs

theorem Numbered.quiet (h : Numbered cs s) (hdelivered : c.delivered = []) (hlabelled : c.labelled = [])
    (hmessages : s'.messages = s.messages) (hsequence : s'.common.commonValueSequenceNumber =
      s.common.commonValueSequenceNumber) : Numbered (cs ++ [c]) s' := by
  simp only [Numbered, delivered, labelled, List.flatMap_append, List.flatMap_singleton, hdelivered,
    hlabelled, List.append_nil, hmessages, hsequence] at h ⊢
  exact h

theorem Numbered.step (h : Numbered cs s) (hwell : Well s) (hbefore : c.before = s)
    (hok : perform s c.action = .ok s') (hnext : Next s c.action s') (hc : c.InStep) :
    Numbered (cs ++ [c]) s' := by
  have hmessages := step_messages hwell hbefore hnext
  obtain ⟨before, action⟩ := c
  obtain rfl : before = s := hbefore
  cases action with
  | receive events =>
    cases hnext with
    | receive => exact h.quiet rfl rfl rfl rfl
  | writeTimestamp now =>
    cases hnext with
    | writeTimestamp => exact h.quiet rfl rfl rfl rfl
  | readKeyboardInput key =>
    cases hnext with
    | readKeyboardInput => exact h.quiet rfl rfl rfl rfl
  | insert now =>
    cases hnext with
    | idle now hnone =>
      exact h.quiet (by simp [Call.delivered, Call.published, hnone])
        (by simp [Call.labelled, Call.taken]) rfl rfl
    | insert now m ring hm =>
      have hone : Call.delivered ⟨before, .insert now⟩ =
          [(appendFor before.common m before.inserter, m)] := by
        simp [Call.delivered, Call.published, Call.consumed, hm]
      have hlabelled : labelled (cs ++ [⟨before, .insert now⟩]) = labelled cs := by
        simp [labelled, Call.labelled, Call.taken]
      have hdelivered : delivered (cs ++ [⟨before, .insert now⟩]) =
          delivered cs ++ [(appendFor before.common m before.inserter, m)] := by
        simp [delivered, hone]
      rw [Numbered, hm, List.map_cons] at h
      rw [Numbered, hlabelled, hdelivered, List.map_append, List.append_assoc, ← h]
      rfl
  | parse =>
    change s'.messages = before.messages ++ Call.queued ⟨before, .parse⟩ at hmessages
    obtain ⟨hsequence, hqueued, hlabelled⟩ | ⟨F, hF, ha, hsequence, hlabelled⟩ := parse_sequence hnext
    · rw [hqueued, List.append_nil] at hmessages
      exact h.quiet rfl hlabelled hmessages hsequence
    · have hpending : before.messages.map (fun m => (sequenceNumberOf F, m)) =
          before.messages.map fun m => (before.common.commonValueSequenceNumber, m) := by
        cases hc F (mem_accepted hwell hok hF ha) with
        | inl hempty =>
          have hempty : before.messages = [] := hempty
          rw [hempty]
          rfl
        | inr hsame => rw [hsame]
      have hlabels : labelled (cs ++ [⟨before, .parse⟩]) = labelled cs ++
          (Call.queued ⟨before, .parse⟩).map fun b => (sequenceNumberOf F, b) := by
        simp [labelled, hlabelled]
      have hdelivered : delivered (cs ++ [⟨before, .parse⟩]) = delivered cs := by
        simp [delivered, Call.delivered, Call.published]
      rw [Numbered] at h
      rw [Numbered, hlabels, hdelivered, hmessages, hsequence, List.map_append, hpending,
        ← List.append_assoc, h]

theorem numbered_run (h : Run Step (initial u) cs s) (hcs : ∀ c ∈ cs, c.InStep) : Numbered cs s := by
  refine (run_invariant (fun cs s => (∀ c ∈ cs, c.InStep) → Numbered cs s) ?_ ?_ h).2 hcs
  · intro _
    rw [Numbered, initial_messages]
    rfl
  · intro cs s c s' hwell hinv hbefore hok hnext hcs
    have hok' : perform s c.action = .ok s' := hok
    exact (hinv fun d hd => hcs d (List.mem_append_left _ hd)).step hwell hbefore hok' hnext
      (hcs c (by simp))

/-! Skip sections. -/

structure Nonzero (cs : List Call) (s : System) : Prop where
  published : ∀ a ∈ published cs, a.sequenceNumber ≠ 0 ∧ 1 ≤ a.bytes.toNat
  pending : s.messages ≠ [] → s.common.commonValueSequenceNumber ≠ 0

theorem Nonzero.quiet (h : Nonzero cs s) (hpublished : c.published = [])
    (hmessages : s'.messages = s.messages) (hsequence : s'.common.commonValueSequenceNumber =
      s.common.commonValueSequenceNumber) : Nonzero (cs ++ [c]) s' := by
  refine ⟨?_, by rw [hmessages, hsequence]; exact h.pending⟩
  rw [published_snoc, hpublished, List.append_nil]
  exact h.published

theorem Nonzero.step (h : Nonzero cs s) (hwell : Well s) (hbefore : c.before = s)
    (hok : perform s c.action = .ok s') (hnext : Next s c.action s')
    (hc : ∀ F ∈ c.accepted, sequenceNumberOf F ≠ 0) : Nonzero (cs ++ [c]) s' := by
  have hmessages := step_messages hwell hbefore hnext
  obtain ⟨before, action⟩ := c
  obtain rfl : before = s := hbefore
  cases action with
  | receive events =>
    cases hnext with
    | receive => exact h.quiet rfl rfl rfl
  | writeTimestamp now =>
    cases hnext with
    | writeTimestamp => exact h.quiet rfl rfl rfl
  | readKeyboardInput key =>
    cases hnext with
    | readKeyboardInput => exact h.quiet rfl rfl rfl
  | insert now =>
    cases hnext with
    | idle now hnone => exact h.quiet (by simp [Call.published, hnone]) rfl rfl
    | insert now m ring hm =>
      have hpending := h.pending (by rw [hm]; exact List.cons_ne_nil _ _)
      have hone : Call.published ⟨before, .insert now⟩ =
          [appendFor before.common m before.inserter] := by simp [Call.published, hm]
      obtain ⟨hmin, hmax⟩ := hwell.messages m (by rw [hm]; simp)
      have hmax' : m.length ≤ 65537 := Nat.le_trans hmax
        (by decide : NetworkReceiverImplementationEFVI.jumboSize + 8 ≤ 65537)
      refine ⟨?_, fun _ => hpending⟩
      rw [published_snoc, hone]
      intro a ha
      obtain ha | ha := List.mem_append.mp ha
      · exact h.published a ha
      · obtain rfl := List.mem_singleton.mp ha
        exact ⟨hpending, appendFor_bytes before.common before.inserter (by omega) hmax'⟩
  | parse =>
    change s'.messages = before.messages ++ Call.queued ⟨before, .parse⟩ at hmessages
    obtain ⟨hsequence, hqueued, -⟩ | ⟨F, hF, ha, hsequence, -⟩ := parse_sequence hnext
    · rw [hqueued, List.append_nil] at hmessages
      exact h.quiet rfl hmessages hsequence
    · have hnumber := hc F (mem_accepted hwell hok hF ha)
      refine ⟨?_, fun _ => by rw [hsequence]; exact hnumber⟩
      rw [published_snoc]
      simpa [Call.published] using h.published

theorem nonzero_run (h : Run Step (initial u) cs s)
    (hnonzero : ∀ c ∈ cs, ∀ F ∈ c.accepted, sequenceNumberOf F ≠ 0) : Nonzero cs s := by
  refine (run_invariant (fun cs s => (∀ c ∈ cs, ∀ F ∈ c.accepted, sequenceNumberOf F ≠ 0) →
    Nonzero cs s) ?_ ?_ h).2 hnonzero
  · exact fun _ => ⟨by simp [published], fun hne => absurd (initial_messages u) hne⟩
  · intro cs s c s' hwell hinv hbefore hok hnext hcs
    have hok' : perform s c.action = .ok s' := hok
    exact (hinv fun d hd => hcs d (List.mem_append_left _ hd)).step hwell hbefore hok' hnext
      (hcs c (by simp))

/-- A header is that of a skip section exactly when its sequence number is 0. -/
theorem records_skip {w : Nat} {as : List Append}
    (has : ∀ a ∈ as, a.sequenceNumber ≠ 0 ∧ 1 ≤ a.bytes.toNat) :
    ∀ r ∈ records w as, r.sequenceNumber = 0 ↔ r.payload = [] := by
  induction as generalizing w with
  | nil => simp [records]
  | cons a as ih =>
    intro r hr
    obtain ⟨hnumber, hbytes⟩ := has a (by simp)
    have hmessage : a.message ≠ [] := by
      rw [Append.message, ne_eq, List.map_eq_nil_iff, List.range_eq_nil]
      omega
    have hzero : a.sequenceNumber.toNat ≠ 0 := fun h0 => hnumber (UInt64.toNat_inj.mp h0)
    obtain hr | hr := List.mem_append.mp hr
    · unfold appended at hr
      split_ifs at hr
      · obtain rfl := List.mem_singleton.mp hr
        simp [messageRecord, hzero, hmessage]
      · simp only [List.mem_cons, List.not_mem_nil, or_false] at hr
        obtain rfl | rfl := hr
        · simp [skipRecord]
        · simp [messageRecord, hzero, hmessage]
    · exact ih (fun b hb => has b (List.mem_cons_of_mem a hb)) r hr

/-- Skip sections and messages are told apart by their numbers, as long as no accepted frame has
the number 0. -/
theorem skip_iff_zero (h : Run Step (initial u) cs s)
    (hnonzero : ∀ c ∈ cs, ∀ F ∈ c.accepted, sequenceNumberOf F ≠ 0) :
    (∀ r ∈ records 0 (published cs), r.sequenceNumber = 0 ↔ r.payload = []) ∧ Decodes u cs s :=
  ⟨records_skip (nonzero_run h hnonzero).published, decodes h⟩

theorem skip_iff_zero_one_message : ∃ cs s, Run Step (initial blank) cs s ∧
    records 0 (published cs) = [⟨0, 1, 1, emptyBlock.drop 2⟩] ∧
    (∀ r ∈ records 0 (published cs), r.sequenceNumber = 0 ↔ r.payload = []) ∧
    Decodes blank cs s := by
  obtain ⟨cs, s, hrun, hlook⟩ := exists_run (s := initial blank)
    [.receive [packetEvent oneMessageFrame], .parse, .insert 0]
    (fun r => (records 0 (published r.2), r.2.all fun c => c.accepted.all fun F =>
      sequenceNumberOf F ≠ 0))
    (v := ([⟨0, 1, 1, emptyBlock.drop 2⟩], true)) (by decide +kernel)
  obtain ⟨hrecords, hall⟩ := Prod.mk.inj hlook
  refine ⟨cs, s, hrun, hrecords, skip_iff_zero hrun fun c hc F hF => ?_⟩
  simpa using List.all_eq_true.mp (List.all_eq_true.mp hall c hc) F hF

/-- The number 0 of an accepted frame goes into the header of its message. -/
theorem zero_number_published : ∃ cs s, Run Step (initial blank) cs s ∧
    accepted cs = [frameOf 0 (List.replicate 8 0) 0 [emptyBlock]] ∧
    ∃ r ∈ records 0 (published cs), r.sequenceNumber = 0 ∧ r.payload ≠ [] := by
  obtain ⟨cs, s, hrun, hlook⟩ := exists_run (s := initial blank)
    [.receive [packetEvent (frameOf 0 (List.replicate 8 0) 0 [emptyBlock])], .parse, .insert 0]
    (fun r => (records 0 (published r.2), accepted r.2))
    (v := ([⟨0, 1, 0, emptyBlock.drop 2⟩], [frameOf 0 (List.replicate 8 0) 0 [emptyBlock]]))
    (by decide +kernel)
  obtain ⟨hrecords, haccepted⟩ := Prod.mk.inj hlook
  exact ⟨cs, s, hrun, haccepted, _, by rw [hrecords]; exact List.mem_singleton.mpr rfl, rfl,
    by decide⟩

end Step

end UdpSm.Pipeline
