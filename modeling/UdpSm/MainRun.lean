import UdpSm.MainSignals

/-! Where a process is, after any operations and signals. -/
namespace UdpSm.Main
open Lib InserterImplementation
open Pipeline (System Action Unset Call Well Next initial)
open InserterLifetime (openSharedMemoryFile)
open UDPJubmoFrameReceiverImplementation (StreamStatusEnum Turn Round Program Turned start)

/-- The process as `Uninitialize` finds it. -/
structure Left (e : Environment) (q : Process) : Prop where
  todo : q.todo = finishOps
  live : q.live = allObjects
  handler : q.handler = true
  lifecycle : q.lifecycle = (received e).2
  inserter : (openedFile e).1 = 0 ∧ Open q ∨
    (openedFile e).1 ≠ 0 ∧ q.lifetime.receivedDataPtr = false

inductive Phase (e : Environment) (ls : List Label) (p : Process) : Prop where
  | starting (finished left : List Op) (hops : initializeOps = finished ++ left)
      (h : Straight e (enter e) finished left (.testReturnValue :: finishOps) p)
      (hflag : 15 ≤ finished.length → (openedFile e).1 = 0 →
        finished.length < 17 ∨ p.returnValue = 0 → p.common.applicationRunFlag = !late ls)
  | looping (ops : List Op) (h : Looping e ls ops p)
  | finishing (finished left : List Op) (hops : finishOps = finished ++ left)
      (ls1 ls2 : List Label) (hls : ls = ls1 ++ ls2) (q : Process)
      (hrun : Run (Step e) (enter e) ls1 q) (hleft : Left e q)
      (hcame : Looping e ls1 [] q ∨ ¬e.Succeeds) (h : Straight e q finished left [] p)

section Step
variable {e : Environment} {ls : List Label} {l : Label} {p p' : Process} {o : Op} {t : Turn}

theorem straight_enter (e : Environment) :
    Straight e (enter e) [] initializeOps (.testReturnValue :: finishOps) (enter e) :=
  ⟨by decide, rfl, rfl, rfl⟩

theorem straight_finish {q : Process} (h : q.todo = finishOps) :
    Straight e q [] finishOps [] q := ⟨by decide, by rw [h, List.append_nil], rfl, rfl⟩

theorem starting_flag {finished left ops : List Op} (hops : initializeOps = finished ++ o :: left)
    (h : Straight e (enter e) finished (o :: left) (.testReturnValue :: finishOps) p)
    (hflag : 15 ≤ finished.length → (openedFile e).1 = 0 →
      finished.length < 17 ∨ p.returnValue = 0 → p.common.applicationRunFlag = !late ls)
    (hok : perform e t { p with todo := ops } o = some p') :
    15 ≤ (finished ++ [o]).length → (openedFile e).1 = 0 →
      (finished ++ [o]).length < 17 ∨ p'.returnValue = 0 →
        p'.common.applicationRunFlag = !late (ls ++ [.op o t]) := by
  intro hlength hopened hzero
  rw [List.length_append, List.length_singleton] at hlength hzero
  have hhead : initializeOps[finished.length]? = some o := by rw [hops]; simp
  have hbound : finished.length < 17 := by
    have htotal := congrArg List.length hops
    rw [List.length_append, List.length_cons] at htotal
    have hall : initializeOps.length = 17 := rfl
    omega
  obtain hk | hk | hk : finished.length = 14 ∨ finished.length = 15 ∨ finished.length = 16 := by
    omega
  · rw [hk] at hhead
    obtain rfl : Op.initializeInserter = o := Option.some.inj hhead
    obtain rfl := Option.some.inj hok
    have hfinished : finished = initializeOps.take 14 := by rw [hops, ← hk, List.take_left]
    have hlifetime : p.lifetime = (connecting e).lifetime := by
      have hcore := congrArg Process.lifetime h.core
      rw [hfinished] at hcore
      exact hcore
    have hopen : (openSharedMemoryFile e.openCalls p.lifetime.mapping).1 = 0 := by
      rw [hlifetime]
      exact hopened
    have heq := initializeInserter_opened (p := { p with todo := ops }) hopen
    rw [late_initializeInserter, heq]
    rfl
  · rw [hk] at hhead
    obtain rfl : Op.new .keyboard = o := Option.some.inj hhead
    obtain rfl := Option.some.inj hok
    rw [late_op (o := .new .keyboard) nofun]
    exact hflag (by omega) hopened (.inl (by omega))
  · rw [hk] at hhead
    obtain rfl : Op.finishInitialize = o := Option.some.inj hhead
    obtain rfl := Option.some.inj hok
    rw [late_op (o := .finishInitialize) nofun]
    have hvalue : ∀ q : Process, q.returnValue = p.returnValue →
        (finishInitialize q).returnValue = 0 → p.returnValue = 0 := by
      intro q hq hz
      rw [← hq, ← (finishInitialize_kept q).1]
      exact hz
    have hz : p.returnValue = 0 := by
      obtain hlt | hz := hzero
      · omega
      · exact hvalue { p with todo := ops } rfl hz
    have hsame : (finishInitialize { p with todo := ops }).common.applicationRunFlag =
        p.common.applicationRunFlag := by
      rw [finishInitialize, if_neg (not_not.mpr hz)]
      rfl
    rw [hsame]
    exact hflag (by omega) hopened (.inr hz)

theorem core_eq (h : Straight e (enter e) initializeOps [] (.testReturnValue :: finishOps) p) :
    p.core = ready e := h.core

/-- The state that `Initialize` leaves when it returns 0, whenever the signals came. -/
theorem ready_state (hints : e.Ints)
    (h : Straight e (enter e) initializeOps [] (.testReturnValue :: finishOps) p)
    (hzero : p.returnValue = 0) : e.Succeeds ∧ Open p ∧
      p.system = { initial e.started with
        context.common.applicationRunFlag := p.common.applicationRunFlag } := by
  have hcore := core_eq h
  have hsucceeds : e.Succeeds := by
    rw [← ready_returnValue hints, ← hcore]
    exact hzero
  obtain ⟨hopen, hsystem⟩ := ready_system hsucceeds hints
  rw [← hcore] at hopen hsystem
  refine ⟨hsucceeds, ⟨hopen.receivedDataPtr, hopen.sharedMemoryBufferPtr, ?_⟩, ?_⟩
  · exact hopen.file
  · have hsame : p.system = { p.core.system with
        context.common.applicationRunFlag := p.common.applicationRunFlag } := rfl
    rw [hsame, hsystem]

theorem Looping.enter (hints : e.Ints)
    (h : Straight e (enter e) initializeOps [] (.testReturnValue :: finishOps) p)
    (hflag : p.common.applicationRunFlag = !late ls) (hzero : p.returnValue = 0) (v : Int) :
    Looping e ls [.iterate] { p with retVal := v, todo := [.iterate] ++ finishOps } := by
  obtain ⟨hsucceeds, hopen, hsystem⟩ := ready_state hints h hzero
  have hcore := core_eq h
  obtain ⟨hhandler, hstate, hlifecycle⟩ := ready_other e
  rw [← hcore] at hhandler hstate hlifecycle
  have hlive := ready_live e
  rw [← hcore] at hlive
  have hwell : Well { initial e.started with
      context.common.applicationRunFlag := p.common.applicationRunFlag } := by
    obtain ⟨hring0, hring1, hframes, hmessages, hjumbo⟩ := Pipeline.well_initial e.started
    exact ⟨hring0, hring1, hframes, hmessages, hjumbo⟩
  refine ⟨hsucceeds, rfl, .turn, hlive, hzero, hhandler, hlifecycle,
    ⟨hopen.receivedDataPtr, hopen.sharedMemoryBufferPtr, hopen.file⟩, hsystem ▸ hwell,
    fun hno => .between [] (.inr rfl) ?_, fun hyes => ?_⟩
  · have hrun : p.common.applicationRunFlag = true := by rw [hflag, hno]; rfl
    have hprogram : Process.program { p with retVal := v, todo := [.iterate] ++ finishOps } =
        start e.started := by
      have hpair : Process.program { p with retVal := v, todo := [.iterate] ++ finishOps } =
          ⟨p.system, p.streamState⟩ := rfl
      have hwait : p.streamState = .waitForSession := hstate
      rw [hpair, hsystem, hrun, hwait]
      rfl
    rw [hprogram]
    exact .nil
  · have hrun : p.common.applicationRunFlag = false := by rw [hflag, hyes]; rfl
    exact hrun

theorem Left.failed (h : Straight e (enter e) initializeOps [] (.testReturnValue :: finishOps) p)
    (v : Int) : Left e { p with retVal := v, todo := finishOps } := by
  have hcore := core_eq h
  obtain ⟨hhandler, -, hlifecycle⟩ := ready_other e
  have hlive := ready_live e
  have hpointers := ready_pointers e
  rw [← hcore] at hhandler hlifecycle hlive hpointers
  refine ⟨rfl, hlive, hhandler, hlifecycle, ?_⟩
  obtain ⟨hopened, hopen⟩ | ⟨hopened, hnull⟩ := hpointers
  · exact .inl ⟨hopened, ⟨hopen.receivedDataPtr, hopen.sharedMemoryBufferPtr, hopen.file⟩⟩
  · exact .inr ⟨hopened, hnull⟩

theorem Left.looped (h : Looping e ls [] p) : Left e p :=
  ⟨h.todo, h.live, h.handler, h.lifecycle, .inl ⟨h.succeeds.opened, h.inserter⟩⟩

theorem Straight.finishing_step {q : Process} {finished left : List Op}
    (hops : finishOps = finished ++ left) (h : Straight e q finished left [] p)
    (hstep : Step e p l p') : ∃ finished' left', finishOps = finished' ++ left' ∧
      Straight e q finished' left' [] p' := by
  cases l with
  | sigint =>
    obtain ⟨-, -, rfl⟩ := hstep.signalled
    exact ⟨finished, left, hops, h.sigint⟩
  | op o t =>
    obtain ⟨rest, htodo, -, hok⟩ := hstep.head
    cases left with
    | nil =>
      rw [h.todo] at htodo
      cases htodo
    | cons o' left =>
      obtain rfl : o' = o := by
        have hhead := h.todo.symm.trans htodo
        exact (List.cons.inj hhead).1
      refine ⟨finished ++ [o'], left, by rw [hops, List.append_assoc]; rfl, ?_⟩
      exact h.op htodo hok

theorem starting_step (hints : e.Ints) (hrun : Run (Step e) (enter e) ls p)
    {finished left : List Op} (hops : initializeOps = finished ++ left)
    (h : Straight e (enter e) finished left (.testReturnValue :: finishOps) p)
    (hflag : 15 ≤ finished.length → (openedFile e).1 = 0 →
      finished.length < 17 ∨ p.returnValue = 0 → p.common.applicationRunFlag = !late ls)
    (hstep : Step e p l p') : Phase e (ls ++ [l]) p' := by
  cases l with
  | sigint =>
    obtain ⟨-, -, rfl⟩ := hstep.signalled
    refine .starting finished left hops h.sigint fun _ _ _ => ?_
    rw [late_sigint]
    rfl
  | op o t =>
    obtain ⟨rest, htodo, -, hok⟩ := hstep.head
    have hhead := h.todo.symm.trans htodo
    cases left with
    | cons o' left =>
      obtain rfl : o' = o := (List.cons.inj hhead).1
      exact .starting (finished ++ [o']) left (by rw [hops, List.append_assoc]; rfl)
        (h.op htodo hok) (starting_flag hops h hflag hok)
    | nil =>
      -- `main` looks at the return value
      obtain ⟨rfl, rfl⟩ := List.cons.inj hhead
      rw [List.append_nil] at hops
      subst hops
      by_cases hzero : p.returnValue = 0
      · have hsucceeds := (ready_state hints h hzero).1
        have hlate : p.common.applicationRunFlag = !late (ls ++ [.op .testReturnValue t]) := by
          rw [late_op (o := .testReturnValue) nofun]
          exact hflag (by decide) hsucceeds.opened (.inr hzero)
        have hnext : p' = { p with retVal := p.returnValue, todo := [.iterate] ++ finishOps } := by
          refine (Option.some.inj hok).symm.trans ?_
          simp only [if_pos hzero]
          rfl
        rw [hnext]
        exact .looping [.iterate] (Looping.enter hints h hlate hzero p.returnValue)
      · have hnext : p' = { p with retVal := p.returnValue, todo := finishOps } := by
          refine (Option.some.inj hok).symm.trans ?_
          simp only [if_neg hzero]
        have hfailed : ¬e.Succeeds := by
          have hcore := core_eq h
          rw [← ready_returnValue hints, ← hcore]
          exact hzero
        have hleft : Left e p' := by
          rw [hnext]
          exact Left.failed h p.returnValue
        exact .finishing [] finishOps rfl (ls ++ [.op .testReturnValue t]) []
          (List.append_nil _).symm p' (hrun.snoc hstep) hleft (.inr hfailed)
          (straight_finish hleft.todo)

theorem looping_step (hrun : Run (Step e) (enter e) ls p) {ops : List Op} (h : Looping e ls ops p)
    (hstep : Step e p l p') : Phase e (ls ++ [l]) p' := by
  cases l with
  | sigint =>
    obtain ⟨-, -, rfl⟩ := hstep.signalled
    exact .looping ops h.sigint
  | op o t =>
    obtain ⟨rest, htodo, -, hok⟩ := hstep.head
    have hhead := h.todo.symm.trans htodo
    cases h.shape with
    | left =>
      have hnone : Straight e p [] finishOps [] p := straight_finish h.todo
      obtain ⟨finished, left, hops, hstraight⟩ :=
        hnone.finishing_step (List.nil_append finishOps).symm hstep
      exact .finishing finished left hops ls [.op o t] rfl p hrun (Left.looped h) (.inl h) hstraight
    | turn =>
      obtain ⟨rfl, rfl⟩ := List.cons.inj hhead
      obtain ⟨ops, -, hlooping⟩ := h.iterate hok
      exact .looping ops hlooping
    | within hremaining =>
      cases ops with
      | nil => exact absurd hremaining (by rintro ⟨as, has, -⟩; simp at has)
      | cons o' ops =>
        obtain ⟨rfl, rfl⟩ := List.cons.inj hhead
        obtain ⟨rfl, rfl⟩ | ⟨hturn, -, -⟩ := hremaining.tail
        · obtain ⟨ops', -, -, hlooping⟩ := h.testRunFlag hok
          exact .looping ops' hlooping
        · cases o' with
          | call a =>
            obtain ⟨s', -, -, -, hlooping⟩ := h.call hremaining hok
            exact .looping ops hlooping
          | parseIfRunning =>
            obtain ⟨ops', -, -, hlooping⟩ := h.parseIfRunning hremaining hok
            exact .looping ops' hlooping
          | _ => cases hturn

theorem phase_step (hints : e.Ints) (hrun : Run (Step e) (enter e) ls p) (h : Phase e ls p)
    (hstep : Step e p l p') : Phase e (ls ++ [l]) p' := by
  cases h with
  | starting finished left hops h hflag => exact starting_step hints hrun hops h hflag hstep
  | looping ops h => exact looping_step hrun h hstep
  | finishing finished left hops ls1 ls2 hls q hq hleft hcame h =>
    obtain ⟨finished', left', hops', h'⟩ := h.finishing_step hops hstep
    exact .finishing finished' left' hops' ls1 (ls2 ++ [l]) (by rw [hls, List.append_assoc]) q hq
      hleft hcame h'

end Step

section Run
variable {e : Environment} {ls : List Label} {p : Process}

theorem phase_run (hints : e.Ints) (h : Run (Step e) (enter e) ls p) : Phase e ls p := by
  refine (Run.invariant (fun ls p => Run (Step e) (enter e) ls p ∧ Phase e ls p) ?_ ?_ h).2
  · exact ⟨.nil, .starting [] initializeOps rfl (straight_enter e) fun hlength => by simp at hlength⟩
  · rintro ls p l p' ⟨hrun, hphase⟩ hstep
    exact ⟨hrun.snoc hstep, phase_step hints hrun hphase hstep⟩

theorem Straight.not_loop {q : Process} {finished left rest ops : List Op} {o : Op}
    (h : Straight e q finished left rest p) (htodo : p.todo = o :: ops)
    (hrest : rest.head? ≠ some o) : o.straight = true := by
  have hhead := h.todo.symm.trans htodo
  cases left with
  | nil =>
    rw [List.nil_append] at hhead
    exact absurd (by rw [hhead, List.head?_cons]) hrest
  | cons o' left =>
    obtain rfl := (List.cons.inj hhead).1
    exact h.straight o' (by simp)

theorem phase_loop (hints : e.Ints) (h : Run (Step e) (enter e) ls p) {ops : List Op}
    (hloop : LoopOps ops) (hops : ops ≠ []) (htodo : p.todo = ops ++ finishOps) :
    Looping e ls ops p := by
  obtain ⟨o, ops', rfl, ho, htest⟩ : ∃ o ops', ops = o :: ops' ∧ o.straight = false ∧
      o ≠ .testReturnValue := by
    cases hloop with
    | left => exact absurd rfl hops
    | turn => exact ⟨.iterate, [], rfl, rfl, nofun⟩
    | within hremaining =>
      cases ops with
      | nil => exact absurd rfl hops
      | cons o ops =>
        obtain ⟨rfl, rfl⟩ | ⟨hturn, -, -⟩ := hremaining.tail
        · exact ⟨.testRunFlag, [], rfl, rfl, nofun⟩
        · cases o with
          | call a => exact ⟨_, ops, rfl, rfl, nofun⟩
          | parseIfRunning => exact ⟨_, ops, rfl, rfl, nofun⟩
          | _ => cases hturn
  cases phase_run hints h with
  | starting finished left _ hstraight =>
    have hyes := hstraight.not_loop htodo fun hsame => htest (Option.some.inj hsame).symm
    rw [ho] at hyes
    cases hyes
  | looping ops hlooping =>
    obtain rfl : ops = o :: ops' := List.append_cancel_right (hlooping.todo.symm.trans htodo)
    exact hlooping
  | finishing finished left _ ls1 ls2 hls q hrun hleft hcame hstraight =>
    have hyes := hstraight.not_loop htodo nofun
    rw [ho] at hyes
    cases hyes

end Run

end UdpSm.Main
