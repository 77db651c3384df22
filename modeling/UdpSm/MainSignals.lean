import UdpSm.MainStart
import UdpSm.PipelineFields

/-! The main loop of the process, call by call, with a SIGINT between any two of them. -/
namespace UdpSm.Main
open Lib InserterImplementation
open Pipeline (System Action Unset Call Well Next initial)
open ParserImplementation (sessionOf)
open UDPJubmoFrameReceiverImplementation (StreamStatusEnum Turn Round Program Turned start)

def Process.program (p : Process) : Program := ⟨p.system, p.streamState⟩

/-- Whether a signal has arrived since the inserter set the run flag. -/
def late (ls : List Label) : Bool :=
  ls.foldl (fun b l =>
    match l with
    | .op .initializeInserter _ => false
    | .op _ _ => b
    | .sigint => true) false

theorem late_sigint (ls : List Label) : late (ls ++ [.sigint]) = true := by
  rw [late, List.foldl_append]
  rfl

theorem late_op {o : Op} (ho : o ≠ .initializeInserter) (ls : List Label) (t : Turn) :
    late (ls ++ [.op o t]) = late ls := by
  rw [late, List.foldl_append]
  cases o with
  | initializeInserter => exact absurd rfl ho
  | _ => rfl

theorem late_initializeInserter (ls : List Label) (t : Turn) :
    late (ls ++ [.op .initializeInserter t]) = false := by
  rw [late, List.foldl_append]
  rfl

/-! The rest of a turn. -/

def restOf (p : Program) : List Op → Except Halt (Program × List Call)
  | .call a :: ops =>
    match Pipeline.perform p.system a with
    | .error h => .error h
    | .ok s => (restOf { p with system := s } ops).map fun r => (r.1, ⟨p.system, a⟩ :: r.2)
  | .parseIfRunning :: ops =>
    if p.system.common.applicationRunFlag then
      match Pipeline.perform p.system .parse with
      | .error h => .error h
      | .ok s => (restOf { p with system := s } ops).map fun r => (r.1, ⟨p.system, .parse⟩ :: r.2)
    else restOf p ops
  | _ => .ok (p, [])

def Op.inTurn : Op → Bool
  | .call _ => true
  | .parseIfRunning => true
  | _ => false

def Op.inserts : Op → Nat
  | .call (.insert _) => 1
  | _ => 0

/-- What is left of a turn: calls, at most one of them to the inserter, and the test of the loop. -/
def Remaining (ops : List Op) : Prop :=
  ∃ as, ops = as ++ [.testRunFlag] ∧ (∀ o ∈ as, o.inTurn = true) ∧ (as.map Op.inserts).sum ≤ 1

theorem remaining_test : Remaining [.testRunFlag] := ⟨[], rfl, by simp, by simp⟩

theorem not_remaining_iterate : ¬Remaining [.iterate] := by
  rintro ⟨as, has, -⟩
  have hlast := congrArg List.getLast? has
  rw [List.getLast?_append] at hlast
  cases hlast

theorem Remaining.tail {o : Op} {ops : List Op} (h : Remaining (o :: ops)) :
    o = .testRunFlag ∧ ops = [] ∨ o.inTurn = true ∧ Remaining ops ∧
      o.inserts + ((ops.map Op.inserts).sum) ≤ 1 := by
  obtain ⟨as, has, hturn, hsum⟩ := h
  cases as with
  | nil =>
    obtain ⟨rfl, rfl⟩ := List.cons.inj has
    exact .inl ⟨rfl, rfl⟩
  | cons a as =>
    obtain ⟨rfl, rfl⟩ := List.cons.inj has
    rw [List.map_cons, List.sum_cons] at hsum
    refine .inr ⟨hturn o (by simp), ⟨as, rfl, fun a ha => hturn a (by simp [ha]), by omega⟩, ?_⟩
    change o.inserts + ((as ++ [Op.testRunFlag]).map Op.inserts).sum ≤ 1
    rw [List.map_append, List.sum_append]
    exact hsum

theorem restOf_calls (p : Program) (as : List Action) (ops : List Op) :
    restOf p (as.map .call ++ ops) =
      match Pipeline.performAll p.system as with
      | .error h => .error h
      | .ok (s, cs) => (restOf { p with system := s } ops).map fun r => (r.1, cs ++ r.2) := by
  induction as generalizing p with
  | nil =>
    simp only [Pipeline.performAll, List.map_nil, List.nil_append]
    cases restOf p ops <;> rfl
  | cons a as ih =>
    rw [List.map_cons, List.cons_append, restOf, Pipeline.performAll]
    cases Pipeline.perform p.system a with
    | error h => rfl
    | ok s =>
      simp only [ih]
      cases Pipeline.performAll s as with
      | error h => rfl
      | ok r =>
        obtain ⟨v, cs⟩ := r
        simp only [Except.map]
        cases restOf ⟨v, p.streamState⟩ ops <;> rfl

theorem restOf_test (p : Program) (ops : List Op) : restOf p (.testRunFlag :: ops) = .ok (p, []) := rfl

theorem restOf_parseIfRunning (p : Program) (ops : List Op) : restOf p (.parseIfRunning :: ops) =
    restOf p ((if p.system.common.applicationRunFlag then [.call .parse] else []) ++ ops) := by
  rw [restOf]
  split_ifs
  · rfl
  · rfl

theorem restOf_parse (p : Program) : restOf p [.parseIfRunning, .testRunFlag] =
    if p.system.common.applicationRunFlag then
      (Pipeline.performAll p.system [.parse]).map fun r => ({ p with system := r.1 }, r.2)
    else .ok (p, []) := by
  rw [restOf_parseIfRunning]
  split_ifs
  · refine (restOf_calls p [.parse] [.testRunFlag]).trans ?_
    cases Pipeline.performAll p.system [.parse] with
    | error h => rfl
    | ok r => simp [restOf_test, Except.map]
  · rfl

theorem iterate_wait {p : Process} (h : p.returnValue = 0) (hstate : p.streamState = .waitForSession)
    (t : Turn) : ∃ ops, iterate t p = { p with
        todo := ops ++ p.todo, streamState := (iterate t p).streamState } ∧
    Remaining ops ∧ UDPJubmoFrameReceiverImplementation.iterate p.program t =
      restOf ⟨p.system, (iterate t p).streamState⟩ ops := by
  simp only [iterate, UDPJubmoFrameReceiverImplementation.iterate, Process.program, hstate, if_pos h]
  have hcommon : p.system.common = p.common := rfl
  rw [hcommon]
  by_cases hwait : p.common.applicationRunFlag = true ∧
      ¬(p.common.commonFlagConnected = true ∧ p.common.commonFlagSessionIdReceived = true)
  · rw [if_pos hwait, if_pos hwait]
    refine ⟨[.call (.readKeyboardInput t.key), .call (.writeTimestamp t.now),
      .call (.receive t.events), .parseIfRunning, .testRunFlag], ?_, ?_, ?_⟩
    · rw [← hstate]
    · exact ⟨[.call (.readKeyboardInput t.key), .call (.writeTimestamp t.now),
        .call (.receive t.events), .parseIfRunning], rfl, by simp [Op.inTurn], by simp [Op.inserts]⟩
    · have hcalls := restOf_calls ⟨p.system, .waitForSession⟩ [.readKeyboardInput t.key,
        .writeTimestamp t.now, .receive t.events] [.parseIfRunning, .testRunFlag]
      simp only [List.map_cons, List.map_nil, List.cons_append, List.nil_append] at hcalls
      rw [hcalls]
      cases Pipeline.performAll p.system
          [.readKeyboardInput t.key, .writeTimestamp t.now, .receive t.events] with
      | error h => rfl
      | ok r =>
        simp only [restOf_parse]
        split_ifs
        · cases Pipeline.performAll r.1 [.parse] <;> rfl
        · simp [Except.map]
  · rw [if_neg hwait, if_neg hwait]
    exact ⟨_, rfl, remaining_test, rfl⟩

theorem iterate_transit {p : Process} (hstate : p.streamState = .transitToSession) (t : Turn) :
    ∃ ops, iterate t p = { p with
        todo := ops ++ p.todo, streamState := (iterate t p).streamState } ∧
    Remaining ops ∧ UDPJubmoFrameReceiverImplementation.iterate p.program t =
      restOf ⟨p.system, (iterate t p).streamState⟩ ops := by
  simp only [iterate, UDPJubmoFrameReceiverImplementation.iterate, Process.program, hstate]
  have hcommon : p.system.common = p.common := rfl
  rw [hcommon]
  split_ifs
  · exact ⟨_, rfl, remaining_test, rfl⟩
  · exact ⟨[.testRunFlag], rfl, remaining_test, by rw [← hstate]; rfl⟩

theorem iterate_session {p : Process} (h : p.returnValue = 0) (hstate : p.streamState = .inSession)
    (t : Turn) : ∃ ops, iterate t p = { p with
        todo := ops ++ p.todo, streamState := (iterate t p).streamState } ∧
    Remaining ops ∧ UDPJubmoFrameReceiverImplementation.iterate p.program t =
      restOf ⟨p.system, (iterate t p).streamState⟩ ops := by
  simp only [iterate, UDPJubmoFrameReceiverImplementation.iterate, Process.program, hstate, if_pos h]
  have hcommon : p.system.common = p.common := rfl
  rw [hcommon]
  split_ifs
  · refine ⟨[.call (.insert t.now), .call (.receive t.events), .call .parse,
      .call (.readKeyboardInput t.key), .testRunFlag], ?_, ?_, ?_⟩
    · rw [← hstate]
    · exact ⟨[.call (.insert t.now), .call (.receive t.events), .call .parse,
        .call (.readKeyboardInput t.key)], rfl, by simp [Op.inTurn], by simp [Op.inserts]⟩
    · have hcalls := restOf_calls ⟨p.system, .inSession⟩ [.insert t.now, .receive t.events, .parse,
        .readKeyboardInput t.key] [.testRunFlag]
      simp only [List.map_cons, List.map_nil, List.cons_append, List.nil_append] at hcalls
      rw [hcalls]
      cases Pipeline.performAll p.system
          [.insert t.now, .receive t.events, .parse, .readKeyboardInput t.key] with
      | error h => rfl
      | ok r => simp [restOf_test, Except.map]
  · exact ⟨[.testRunFlag], rfl, remaining_test, by rw [← hstate]; rfl⟩

/-- A turn of the loop is what its operations make of it. -/
theorem iterate_rest {p : Process} (h : p.returnValue = 0) (t : Turn) : ∃ ops,
    iterate t p = { p with todo := ops ++ p.todo, streamState := (iterate t p).streamState } ∧
    Remaining ops ∧ UDPJubmoFrameReceiverImplementation.iterate p.program t =
      restOf ⟨p.system, (iterate t p).streamState⟩ ops := by
  cases hstate : p.streamState with
  | waitForSession => exact iterate_wait h hstate t
  | transitToSession => exact iterate_transit hstate t
  | inSession => exact iterate_session h hstate t

/-! What holds in the loop. -/

inductive LoopOps : List Op → Prop where
  | left : LoopOps []
  | turn : LoopOps [.iterate]
  | within {ops : List Op} (h : Remaining ops) : LoopOps ops

/-- The turns of the process are those of the main loop: between two of them, or in the one that
began at `q`. -/
inductive Turns (e : Environment) (ops : List Op) (p : Process) : Prop where
  | between (rs : List Round) (hops : ops = [] ∨ ops = [.iterate])
      (hrun : Run Turned (start e.started) rs p.program)
  | within (rs : List Round) (q : Program) (t : Turn) (cs : List Call) (hops : Remaining ops)
      (hrun : Run Turned (start e.started) rs q)
      (hturn : UDPJubmoFrameReceiverImplementation.iterate q t =
        (restOf p.program ops).map fun r => (r.1, cs ++ r.2))

structure Looping (e : Environment) (ls : List Label) (ops : List Op) (p : Process) : Prop where
  succeeds : e.Succeeds
  todo : p.todo = ops ++ finishOps
  shape : LoopOps ops
  live : p.live = allObjects
  returnValue : p.returnValue = 0
  handler : p.handler = true
  lifecycle : p.lifecycle = (received e).2
  inserter : Open p
  well : Well p.system
  turns : late ls = false → Turns e ops p
  stopped : late ls = true → p.common.applicationRunFlag = false

section Loop
variable {e : Environment} {ls : List Label} {ops : List Op} {p p' : Process} {s : System}

theorem withSystem_system (h : Open p) (s : System) : (p.withSystem s).system = s := by
  rw [Process.system, Process.withSystem]
  simp only [h.file]
  rfl

theorem Open.withSystem (h : Open p) (s : System) : Open (p.withSystem s) := by
  refine ⟨h.receivedDataPtr, h.sharedMemoryBufferPtr, ?_⟩
  rw [withSystem_system h]
  simp only [Process.withSystem, h.file]
  rfl

theorem Well.stopped (h : Well s) : Well { s with context.common.applicationRunFlag := false } :=
  ⟨h.ring0, h.ring1, h.frames, h.messages, h.jumbo⟩

theorem call_runFlag {a : Action} {s' : System} (hnext : Next s a s')
    (h : s.common.applicationRunFlag = false) : s'.common.applicationRunFlag = false := by
  cases a with
  | receive events =>
    have hrun := (Pipeline.calm_receive hnext).run
    rw [h] at hrun
    simpa using hrun
  | parse => exact (Pipeline.parse_step hnext).2.2.2.trans h
  | insert now => rw [(Pipeline.insert_step hnext).1, h]
  | writeTimestamp now =>
    have hrun := (Pipeline.calm_writeTimestamp hnext).run
    rw [h] at hrun
    simpa using hrun
  | readKeyboardInput key =>
    have hrun := (Pipeline.calm_readKeyboardInput hnext).run
    rw [h] at hrun
    simpa using hrun

theorem Looping.sigint (h : Looping e ls ops p) :
    Looping e (ls ++ [.sigint]) ops (p.withRunFlag false) where
  succeeds := h.succeeds
  todo := h.todo
  shape := h.shape
  live := h.live
  returnValue := h.returnValue
  handler := h.handler
  lifecycle := h.lifecycle
  inserter := ⟨h.inserter.receivedDataPtr, h.inserter.sharedMemoryBufferPtr, h.inserter.file⟩
  well := Well.stopped h.well
  turns := fun hlate => by rw [late_sigint] at hlate; cases hlate
  stopped := fun _ => rfl

theorem Looping.iterate {t : Turn} (h : Looping e ls [.iterate] p)
    (hok : perform e t { p with todo := finishOps } .iterate = some p') : ∃ ops,
    Remaining ops ∧ Looping e (ls ++ [.op .iterate t]) ops p' := by
  obtain rfl := Option.some.inj hok
  obtain ⟨ops, hiterate, hremaining, hturn⟩ :=
    iterate_rest (p := { p with todo := finishOps }) h.returnValue t
  have hlate := late_op (o := .iterate) nofun ls t
  generalize (iterate t { p with todo := finishOps }).streamState = state at hiterate hturn
  rw [hiterate]
  refine ⟨ops, hremaining, h.succeeds, rfl, .within hremaining, h.live, h.returnValue, h.handler,
    h.lifecycle, ⟨h.inserter.receivedDataPtr, h.inserter.sharedMemoryBufferPtr, h.inserter.file⟩,
    h.well, fun hno => ?_, fun hyes => h.stopped (hlate ▸ hyes)⟩
  cases h.turns (hlate ▸ hno) with
  | between rs _ hrun =>
    refine .within rs p.program t [] hremaining hrun ?_
    have hprogram : p.program = Process.program { p with todo := finishOps } := rfl
    rw [hprogram, hturn]
    change restOf ⟨p.system, state⟩ ops = (restOf ⟨p.system, state⟩ ops).map fun r => (r.1, r.2)
    cases restOf ⟨p.system, state⟩ ops <;> rfl
  | within rs q t' cs hops => exact absurd hops not_remaining_iterate

theorem Looping.call {a : Action} {t : Turn} (h : Looping e ls (.call a :: ops) p)
    (hremaining : Remaining (.call a :: ops))
    (hok : perform e t { p with todo := ops ++ finishOps } (.call a) = some p') :
    ∃ s', Pipeline.perform p.system a = .ok s' ∧ Next p.system a s' ∧
      p' = { p with todo := ops ++ finishOps }.withSystem s' ∧
      Looping e (ls ++ [.op (.call a) t]) ops p' := by
  obtain ⟨s', hs', rfl⟩ := Option.map_eq_some_iff.mp hok
  have hcall : Pipeline.perform p.system a = .ok s' := Pipeline.ok_of_toOption hs'
  obtain ⟨hwell, hnext⟩ := h.well.next hcall
  have hopen : Open { p with todo := ops ++ finishOps } :=
    ⟨h.inserter.receivedDataPtr, h.inserter.sharedMemoryBufferPtr, h.inserter.file⟩
  have hsystem := withSystem_system hopen s'
  have hrest : Remaining ops := by
    obtain ⟨hop, -⟩ | ⟨-, hrest, -⟩ := hremaining.tail
    · cases hop
    · exact hrest
  have hlate := late_op (o := .call a) nofun ls t
  refine ⟨s', hcall, hnext, rfl, h.succeeds, rfl, .within hrest, h.live, h.returnValue, h.handler,
    h.lifecycle, hopen.withSystem s', by rwa [hsystem], fun hno => ?_, fun hyes => ?_⟩
  · cases h.turns (hlate ▸ hno) with
    | between rs hops => simp at hops
    | within rs q t' cs _ hrun hturn =>
      refine .within rs q t' (cs ++ [⟨p.system, a⟩]) hrest hrun ?_
      have hprogram : Process.program ({ p with todo := ops ++ finishOps }.withSystem s') =
          { p.program with system := s' } := by
        rw [Process.program, hsystem]
        rfl
      have hperform : Pipeline.perform p.program.system a = .ok s' := hcall
      rw [hturn, restOf, hprogram]
      simp only [hperform]
      cases restOf { p.program with system := s' } ops with
      | error h => rfl
      | ok r => simp [Except.map, Process.program]
  · exact call_runFlag hnext (h.stopped (hlate ▸ hyes))

theorem Looping.of_todo {o : Op} {t : Turn} {ops' : List Op}
    (h : Looping e ls (o :: ops) p) (ho : o ≠ .initializeInserter)
    (hshape : LoopOps ops') (hturns : late ls = false → Turns e ops' p) :
    Looping e (ls ++ [.op o t]) ops' { p with todo := ops' ++ finishOps } where
  succeeds := h.succeeds
  todo := rfl
  shape := hshape
  live := h.live
  returnValue := h.returnValue
  handler := h.handler
  lifecycle := h.lifecycle
  inserter := ⟨h.inserter.receivedDataPtr, h.inserter.sharedMemoryBufferPtr, h.inserter.file⟩
  well := h.well
  turns := fun hno => by
    rw [late_op ho] at hno
    cases hturns hno with
    | between rs hops hrun => exact .between rs hops hrun
    | within rs q t' cs hops hrun hturn => exact .within rs q t' cs hops hrun hturn
  stopped := fun hyes => h.stopped (late_op ho ls t ▸ hyes)

theorem perform_parseIfRunning (t : Turn) (ops : List Op) :
    perform e t { p with todo := ops } .parseIfRunning = some
      { p with todo := (if p.common.applicationRunFlag then [.call .parse] else []) ++ ops } := by
  by_cases hrun : p.common.applicationRunFlag = true
  · rw [if_pos hrun]
    exact congrArg some (if_pos hrun)
  · rw [if_neg hrun]
    exact congrArg some (if_neg hrun)

theorem perform_testRunFlag (t : Turn) (ops : List Op) :
    perform e t { p with todo := ops } .testRunFlag = some
      { p with todo := (if p.common.applicationRunFlag then [.iterate] else []) ++ ops } := by
  by_cases hrun : p.common.applicationRunFlag = true
  · rw [if_pos hrun]
    exact congrArg some (if_pos hrun)
  · rw [if_neg hrun]
    exact congrArg some (if_neg hrun)

theorem Looping.parseIfRunning {t : Turn} (h : Looping e ls (.parseIfRunning :: ops) p)
    (hremaining : Remaining (.parseIfRunning :: ops))
    (hok : perform e t { p with todo := ops ++ finishOps } .parseIfRunning = some p') :
    ∃ ops', ops' = (if p.common.applicationRunFlag then [.call .parse] else []) ++ ops ∧
      p' = { p with todo := ops' ++ finishOps } ∧
      Looping e (ls ++ [.op .parseIfRunning t]) ops' p' := by
  have hrest : Remaining ops := by
    obtain ⟨hop, -⟩ | ⟨-, hrest, -⟩ := hremaining.tail
    · cases hop
    · exact hrest
  rw [perform_parseIfRunning] at hok
  obtain rfl := Option.some.inj hok
  refine ⟨_, rfl, by rw [List.append_assoc], ?_⟩
  rw [← List.append_assoc]
  have hops : Remaining ((if p.common.applicationRunFlag then [.call .parse] else []) ++ ops) := by
    split_ifs
    · obtain ⟨as, rfl, hturn, hsum⟩ := hrest
      refine ⟨.call .parse :: as, rfl, ?_, by simpa [Op.inserts] using hsum⟩
      intro o ho
      obtain rfl | ho := List.mem_cons.mp ho
      · rfl
      · exact hturn o ho
    · exact hrest
  refine h.of_todo nofun (.within hops) fun hno => ?_
  cases h.turns hno with
  | between rs hops => simp at hops
  | within rs q t' cs _ hrun hturn =>
    rw [restOf_parseIfRunning] at hturn
    exact .within rs q t' cs hops hrun hturn

theorem Looping.testRunFlag {t : Turn} (h : Looping e ls [.testRunFlag] p)
    (hok : perform e t { p with todo := finishOps } .testRunFlag = some p') :
    ∃ ops', ops' = (if p.common.applicationRunFlag then [.iterate] else []) ∧
      p' = { p with todo := ops' ++ finishOps } ∧
      Looping e (ls ++ [.op .testRunFlag t]) ops' p' := by
  have hbetween (ops' : List Op) (hops : ops' = [] ∨ ops' = [.iterate]) (hno : late ls = false) :
      Turns e ops' p := by
    cases h.turns hno with
    | between rs hops => simp at hops
    | within rs q t' cs _ hrun hturn =>
      have hturned : Turned q ⟨t', cs⟩ p.program := by
        rw [Turned, hturn, restOf_test]
        simp [Except.map]
      have h1 : Run Turned (start e.started) rs q := hrun
      have h2 : Run Turned q [⟨t', cs⟩] p.program := Run.single hturned
      have h3 := h1.append h2
      exact .between (rs ++ [⟨t', cs⟩]) hops h3
  rw [perform_testRunFlag] at hok
  obtain rfl := Option.some.inj hok
  refine ⟨_, rfl, rfl, ?_⟩
  by_cases hrun : p.common.applicationRunFlag = true
  · rw [if_pos hrun]
    exact h.of_todo nofun .turn (hbetween _ (.inr rfl))
  · rw [if_neg hrun]
    exact h.of_todo nofun .left (hbetween _ (.inl rfl))

end Loop

end UdpSm.Main
