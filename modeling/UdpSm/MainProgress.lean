import UdpSm.MainRun

/-! No operation of the process finds an object deleted or a pointer unset. -/
namespace UdpSm.Main
open Lib InserterImplementation
open Pipeline (System Action Unset Call)
open NetworkReceiverImplementationEFVI (allFreed blankLifecycle succeeding initializeReceiver_complete
  complete_succeeding)
open UDPJubmoFrameReceiverImplementation (Turn)

def Op.fits (live : List Object) : Op → Bool
  | .uninitializeInserter => decide (.inserter ∈ live → Object.inserter.uses ⊆ live)
  | .uninitializeReceiver => decide (.networkReceiver ∈ live → Object.networkReceiver.uses ⊆ live)
  | .delete o => decide (o ∈ live → o.uses ⊆ live)
  | o => decide (o.needs ⊆ live)

def fitsAll (live : List Object) : List Op → Bool
  | [] => true
  | o :: ops => o.fits live && fitsAll (liveStep live o) ops

def Closable (p : Process) : Prop :=
  p.lifetime.receivedDataPtr = true → p.lifetime.mapping.sharedMemoryBufferPtr = true

section Progress
variable {e : Environment} {ls : List Label} {p p' q : Process} {o : Op} {t : Turn}
  {finished left rest : List Op}

theorem fitsAll_initializeOps : fitsAll [] initializeOps = true := by decide

theorem fitsAll_finishOps : fitsAll allObjects finishOps = true := by decide

theorem fits_at {live : List Object} (h : fitsAll live (finished ++ o :: left) = true) :
    o.fits (finished.foldl liveStep live) = true := by
  induction finished generalizing live with
  | nil =>
    rw [List.nil_append, fitsAll, Bool.and_eq_true] at h
    exact h.1
  | cons o' finished ih =>
    rw [List.cons_append, fitsAll, Bool.and_eq_true] at h
    exact ih h.2

theorem advance_op {ops : List Op} (htodo : p.todo = o :: ops) (hneeds : o.needs ⊆ p.live) :
    advance e t p = perform e t { p with todo := ops } o := by
  rw [advance, htodo]
  exact if_pos hneeds

theorem Step.of_perform {ops : List Op} (htodo : p.todo = o :: ops) (hneeds : o.needs ⊆ p.live)
    (hok : perform e t { p with todo := ops } o = some p') : Step e p (.op o t) p' :=
  .op (by rw [htodo, List.head?_cons]) ((advance_op htodo hneeds).trans hok)

theorem fits_needs {live : List Object} (h : o.fits live = true) : o.needs ⊆ live := by
  cases o with
  | uninitializeInserter => exact List.nil_subset _
  | uninitializeReceiver => exact List.nil_subset _
  | delete o => exact List.nil_subset _
  | _ => exact of_decide_eq_true h

theorem uninitializeInserter_closable (h : Closable p) : ∃ p', uninitializeInserter p = some p' := by
  unfold uninitializeInserter InserterLifetime.uninitializeInserter
  split_ifs with _ hreceived hshared
  · exact ⟨_, rfl⟩
  · exact absurd (h hreceived) hshared
  · exact ⟨_, rfl⟩
  · exact ⟨_, rfl⟩

theorem perform_fits (ho : o.straight = true) (hfits : o.fits p.live = true)
    (hclosable : o = .uninitializeInserter → Closable p) : ∃ p', perform e t p o = some p' := by
  cases o with
  | uninitializeInserter =>
    obtain ⟨p', hp'⟩ := uninitializeInserter_closable (hclosable rfl)
    exact ⟨p', (if_pos (of_decide_eq_true hfits)).trans hp'⟩
  | uninitializeReceiver => exact ⟨_, if_pos (of_decide_eq_true hfits)⟩
  | delete o => exact ⟨_, if_pos (of_decide_eq_true hfits)⟩
  | testReturnValue => cases ho
  | iterate => cases ho
  | call => cases ho
  | parseIfRunning => cases ho
  | testRunFlag => cases ho
  | _ => exact ⟨_, rfl⟩

theorem Straight.exists_step (h : Straight e q finished (o :: left) rest p)
    (hfits : fitsAll q.live (finished ++ o :: left) = true)
    (hclosable : o = .uninitializeInserter → Closable p) (t : Turn) :
    ∃ p', Step e p (.op o t) p' ∧ Straight e q (finished ++ [o]) left rest p' := by
  have htodo : p.todo = o :: (left ++ rest) := h.todo
  have hthere : o.fits p.live = true := by
    rw [h.live]
    exact fits_at hfits
  obtain ⟨p', hp'⟩ := perform_fits (e := e) (t := t) (p := { p with todo := left ++ rest })
    (h.straight o (by simp)) hthere hclosable
  exact ⟨p', .of_perform htodo (fits_needs hthere) hp', h.op htodo hp'⟩

/-! `Uninitialize`. -/

theorem finish_perform (ho : o ∈ finishOps) (h : perform e t p o = some p') :
    p'.context = { p.context with
        common.commonFlagConnected := p'.common.commonFlagConnected } ∧
      p'.todo = p.todo ∧ (Closable p → Closable p') := by
  cases o with
  | clearReturnValue =>
    obtain rfl := Option.some.inj h
    exact ⟨rfl, rfl, id⟩
  | uninitializeInserter =>
    simp only [perform, uninitializeInserter, InserterLifetime.uninitializeInserter] at h
    split_ifs at h
    · obtain rfl := Option.some.inj h
      exact ⟨rfl, rfl, fun _ hno => by cases hno⟩
    · simp at h
    · obtain rfl := Option.some.inj h
      exact ⟨rfl, rfl, id⟩
    · obtain rfl := Option.some.inj h
      exact ⟨rfl, rfl, id⟩
  | uninitializeReceiver =>
    simp only [perform, uninitializeReceiver] at h
    split_ifs at h
    · obtain rfl := Option.some.inj h
      exact ⟨rfl, rfl, id⟩
    · obtain rfl := Option.some.inj h
      exact ⟨rfl, rfl, id⟩
  | delete o =>
    simp only [perform] at h
    split_ifs at h
    obtain rfl := Option.some.inj h
    exact ⟨rfl, rfl, id⟩
  | keepReturnValue =>
    obtain rfl := Option.some.inj h
    exact ⟨rfl, rfl, id⟩
  | _ => simp [finishOps, uninitializeOps] at ho

theorem performed_closable (hops : ∀ o ∈ finished, o ∈ finishOps) (h : Closable q) :
    Closable (performed e finished q) := by
  induction finished using List.reverseRecOn with
  | nil => exact h
  | append_singleton finished o ih =>
    have hlast := ih fun o ho => hops o (by simp [ho])
    rw [performed_snoc]
    cases hperform : perform e quiet (performed e finished q) o with
    | none => exact hlast
    | some p => exact (finish_perform (hops o (by simp)) hperform).2.2 hlast

theorem Straight.closable (h : Straight e q finished left rest p)
    (hops : ∀ o ∈ finished, o ∈ finishOps) (hclosable : Closable q) : Closable p := by
  have hcore : Closable p.core := by
    rw [h.core]
    exact performed_closable hops hclosable
  exact hcore

theorem Left.closable (h : Left e q) : Closable q := by
  obtain ⟨-, hopen⟩ | ⟨-, hnull⟩ := h.inserter
  · exact fun _ => hopen.sharedMemoryBufferPtr
  · intro hreceived
    rw [hnull] at hreceived
    cases hreceived

/-! Runs without a signal. -/

theorem late_append_ops (ls : List Label) {ops : List Op} (hops : ∀ o ∈ ops, o ≠ .initializeInserter)
    (t : Turn) : late (ls ++ ops.map (Label.op · t)) = late ls := by
  induction ops using List.reverseRecOn with
  | nil => rw [List.map_nil, List.append_nil]
  | append_singleton ops o ih =>
    rw [List.map_append, ← List.append_assoc]
    exact (late_op (hops o (by simp)) _ t).trans (ih fun o ho => hops o (by simp [ho]))

theorem Straight.exists_run (h : Straight e q finished left rest p)
    (hfits : fitsAll q.live (finished ++ left) = true)
    (hclosable : ∀ finished' o left' p', finished ++ left = finished' ++ o :: left' →
      Straight e q finished' (o :: left') rest p' → o = .uninitializeInserter → Closable p') :
    ∃ p', Run (Step e) p (left.map (Label.op · quiet)) p' ∧
      Straight e q (finished ++ left) [] rest p' := by
  induction left generalizing finished p with
  | nil => exact ⟨p, .nil, by rwa [List.append_nil]⟩
  | cons o left ih =>
    obtain ⟨p', hstep, hstraight⟩ := h.exists_step hfits (hclosable finished o left p rfl h) quiet
    have hassoc : finished ++ [o] ++ left = finished ++ o :: left := by simp
    obtain ⟨p'', hrun, hend⟩ := ih hstraight (by rwa [hassoc]) (by rwa [hassoc])
    rw [hassoc] at hend
    exact ⟨p'', (Run.single hstep).append hrun, hend⟩

theorem exists_initialized (e : Environment) : ∃ p,
    Run (Step e) (enter e) (initializeOps.map (Label.op · quiet)) p ∧
      Straight e (enter e) initializeOps [] (.testReturnValue :: finishOps) p := by
  refine (straight_enter e).exists_run fitsAll_initializeOps ?_
  rintro finished' o left' p' hops - rfl
  have hmem : Op.uninitializeInserter ∈ initializeOps := by
    rw [List.nil_append] at hops
    rw [hops]
    simp
  simp [initializeOps] at hmem

theorem exists_exit (h : Left e q) : ∃ p,
    Run (Step e) q (finishOps.map (Label.op · quiet)) p ∧ p.todo = [] := by
  have hfits : fitsAll q.live finishOps = true := by
    rw [h.live]
    exact fitsAll_finishOps
  obtain ⟨p, hrun, hstraight⟩ := (straight_finish (e := e) h.todo).exists_run hfits (by
    intro finished' o left' p' hops hp' _
    refine hp'.closable (fun o' ho' => ?_) h.closable
    rw [List.nil_append] at hops
    rw [hops]
    exact List.mem_append_left _ ho')
  exact ⟨p, hrun, hstraight.todo⟩

theorem exists_started (hints : e.Ints) (h : e.Succeeds) : ∃ ls p, Run (Step e) (enter e) ls p ∧
    p.todo = .iterate :: finishOps ∧ late ls = false := by
  obtain ⟨p, hrun, hstraight⟩ := exists_initialized e
  have hzero : p.returnValue = 0 := by
    have hcore := core_eq hstraight
    have hready := (ready_returnValue hints).mpr h
    rw [← hcore] at hready
    exact hready
  have hstep : Step e p (.op .testReturnValue quiet)
      { p with retVal := p.returnValue, todo := .iterate :: finishOps } := by
    refine .of_perform hstraight.todo (List.nil_subset _) (congrArg some ?_)
    simp only [hzero, if_true]
  refine ⟨_, _, hrun.snoc hstep, rfl, ?_⟩
  rw [late_op (o := .testReturnValue) nofun]
  have hops : initializeOps = (initializeOps.take 14 ++ [.initializeInserter]) ++
      [.new .keyboard, .finishInitialize] := rfl
  rw [hops, List.map_append, late_append_ops _ (by simp), List.map_append]
  exact late_initializeInserter _ quiet

/-! SIGINT. -/

def Op.installs : Op → Bool
  | .installHandler => true
  | _ => false

theorem perform_handler (h : perform e t p o = some p') :
    p'.handler = (p.handler || o.installs) := by
  cases o with
  | installHandler =>
    obtain rfl := Option.some.inj h
    exact (Bool.or_true _).symm
  | finishInitialize =>
    obtain rfl := Option.some.inj h
    unfold finishInitialize
    split_ifs
    · exact (Bool.or_false _).symm
    · exact (Bool.or_false _).symm
  | iterate =>
    obtain rfl := Option.some.inj h
    unfold iterate
    cases p.streamState <;> simp only [] <;> split_ifs <;> exact (Bool.or_false _).symm
  | call a =>
    obtain ⟨s, -, rfl⟩ := Option.map_eq_some_iff.mp h
    exact (Bool.or_false _).symm
  | parseIfRunning =>
    obtain rfl := Option.some.inj h
    split_ifs
    · exact (Bool.or_false _).symm
    · exact (Bool.or_false _).symm
  | testRunFlag =>
    obtain rfl := Option.some.inj h
    split_ifs
    · exact (Bool.or_false _).symm
    · exact (Bool.or_false _).symm
  | uninitializeInserter =>
    simp only [perform, uninitializeInserter] at h
    split_ifs at h
    · obtain ⟨r, -, rfl⟩ := Option.map_eq_some_iff.mp h
      exact (Bool.or_false _).symm
    · obtain rfl := Option.some.inj h
      exact (Bool.or_false _).symm
  | uninitializeReceiver =>
    simp only [perform, uninitializeReceiver] at h
    split_ifs at h
    · obtain rfl := Option.some.inj h
      exact (Bool.or_false _).symm
    · obtain rfl := Option.some.inj h
      exact (Bool.or_false _).symm
  | delete o =>
    simp only [perform] at h
    split_ifs at h
    obtain rfl := Option.some.inj h
    exact (Bool.or_false _).symm
  | new o =>
    obtain rfl := Option.some.inj h
    cases o <;> exact (Bool.or_false _).symm
  | _ =>
    obtain rfl := Option.some.inj h
    exact (Bool.or_false _).symm

theorem performed_handler (e : Environment) (ops : List Op) (q : Process) :
    (performed e ops q).handler = (q.handler || ops.any Op.installs) := by
  induction ops using List.reverseRecOn with
  | nil => exact (Bool.or_false _).symm
  | append_singleton ops o ih =>
    rw [List.any_append, ← Bool.or_assoc, ← ih, performed_snoc, List.any_cons, List.any_nil,
      Bool.or_false]
    cases hperform : perform e quiet (performed e ops q) o with
    | none =>
      cases o with
      | installHandler => cases hperform
      | _ => exact (Bool.or_false _).symm
    | some p =>
      have hlast := perform_handler hperform
      exact hlast

theorem Straight.handler (h : Straight e q finished left rest p) :
    p.handler = (q.handler || finished.any Op.installs) := by
  rw [← performed_handler, ← h.core]
  rfl

theorem starting_handler (hops : initializeOps = finished ++ left)
    (h : Straight e (enter e) finished left rest p) (hhandler : p.handler = true) :
    .commonData ∈ p.live := by
  have hinstalls : finished.any Op.installs = true := by
    rw [← h.handler.symm.trans hhandler]
    exact (Bool.false_or _).symm
  have hall : ∀ k < 18, (initializeOps.take k).any Op.installs = true →
      .commonData ∈ (initializeOps.take k).foldl liveStep [] := by decide
  have htake : finished = initializeOps.take finished.length := by rw [hops, List.take_left]
  have hlength : finished.length < 18 := by
    have htotal := congrArg List.length hops
    rw [List.length_append] at htotal
    have h17 : initializeOps.length = 17 := rfl
    omega
  rw [h.live, htake]
  exact hall _ hlength (htake ▸ hinstalls)

theorem signalHandler_none : signalHandler p = none ↔ .commonData ∉ p.live := by
  unfold signalHandler
  split_ifs with hlive
  · simp [hlive]
  · simp [hlive]

/-- Where more is left to do, the common data is still there. -/
theorem signal_taken (hlive : .commonData ∈ p.live) (hlength : 22 < p.todo.length) :
    signalHandler p = none ↔ p.todo <:+ finishOps.drop 9 := by
  constructor
  · intro hnone
    exact absurd hlive (signalHandler_none.mp hnone)
  · intro hsuffix
    have hshort := hsuffix.length_le
    have h22 : (finishOps.drop 9).length = 22 := rfl
    omega

/-- Once it is deleted, the handler writes to it nevertheless. -/
theorem finishing_signal (hops : finishOps = finished ++ left)
    (h : Straight e q finished left [] p) (hq : q.live = allObjects) :
    signalHandler p = none ↔ p.todo <:+ finishOps.drop 9 := by
  have hall : ∀ k < 32, .commonData ∉ (finishOps.take k).foldl liveStep allObjects ↔ 9 ≤ k := by
    decide
  have htake : finished = finishOps.take finished.length := by rw [hops, List.take_left]
  have hdrop : left = finishOps.drop finished.length := by rw [hops, List.drop_left]
  have hlength : finished.length < 32 := by
    have htotal := congrArg List.length hops
    rw [List.length_append] at htotal
    have h31 : finishOps.length = 31 := rfl
    omega
  have hk := hall _ hlength
  rw [← htake, ← hq, ← h.live] at hk
  rw [signalHandler_none, hk, h.todo, List.append_nil]
  constructor
  · intro hle
    obtain ⟨k, hk⟩ := Nat.exists_eq_add_of_le hle
    rw [hdrop, hk, ← List.drop_drop]
    exact List.drop_suffix k _
  · intro hsuffix
    have hshort := hsuffix.length_le
    have htotal := congrArg List.length hops
    rw [List.length_append] at htotal
    have h31 : finishOps.length = 31 := rfl
    have h22 : (finishOps.drop 9).length = 22 := rfl
    omega

/-! The process. -/

theorem mem_allObjects (o : Object) : o ∈ allObjects := by cases o <;> decide

theorem Looping.needs {ops : List Op} (h : Looping e ls ops p) : o.needs ⊆ p.live := by
  rw [h.live]
  exact fun o' _ => mem_allObjects o'

theorem Looping.exists_step {ops : List Op} (h : Looping e ls (o :: ops) p) (t : Turn) :
    (∃ p', Step e p (.op o t) p') ∨ ∃ a v, o = .call a ∧ Pipeline.perform p.system a = .error v := by
  have hneeds : o.needs ⊆ p.live := h.needs
  have htodo : p.todo = o :: (ops ++ finishOps) := h.todo
  cases h.shape with
  | turn => exact .inl ⟨_, .of_perform htodo hneeds rfl⟩
  | within hremaining =>
    obtain ⟨rfl, -⟩ | ⟨hturn, -, -⟩ := hremaining.tail
    · exact .inl ⟨_, .of_perform htodo hneeds rfl⟩
    · cases o with
      | call a =>
        cases hperform : Pipeline.perform p.system a with
        | error v => exact .inr ⟨a, v, rfl, hperform⟩
        | ok s =>
          refine .inl ⟨_, .of_perform htodo hneeds (Option.map_eq_some_iff.mpr ⟨s, ?_, rfl⟩)⟩
          have hsystem : Process.system { p with todo := ops ++ finishOps } = p.system := rfl
          rw [hsystem, hperform]
          rfl
      | parseIfRunning => exact .inl ⟨_, .of_perform htodo hneeds rfl⟩
      | _ => cases hturn

def favourable : Environment :=
  { unset := Pipeline.blank
    lifecycle := blankLifecycle
    schedSetaffinity := 0
    mlockall := 0
    initializeCall := succeeding true
    openCalls := ⟨true, false, 0, 0, true⟩
    uninitializeCall := allFreed }

theorem ints_favourable : favourable.Ints := by
  refine ⟨?_, ?_, ?_, ?_, ?_, ?_, ?_, ?_⟩
  all_goals exact isInt_small (v := 0) (by decide) (by decide)

theorem succeeds_favourable : favourable.Succeeds where
  pinned := rfl
  received := by
    have hidle : favourable.lifecycle.constructed.Idle := ⟨rfl, rfl, rfl, rfl⟩
    exact congrArg Prod.fst (initializeReceiver_complete hidle complete_succeeding)
  opened := by decide +kernel

/-! After a signal. -/

theorem iterate_stopped (hrun : p.common.applicationRunFlag = false) (t : Turn) :
    (iterate t p).todo = .testRunFlag :: p.todo := by
  unfold iterate
  by_cases hzero : p.returnValue = 0 <;> cases p.streamState <;> simp [hrun, hzero]

theorem Looping.iterate_stopped (h : Looping e ls [.iterate] p) (hlate : late ls = true)
    (hok : perform e t { p with todo := finishOps } .iterate = some p') :
    Looping e (ls ++ [.op .iterate t]) [.testRunFlag] p' := by
  obtain ⟨ops, -, hlooping⟩ := h.iterate hok
  obtain rfl := Option.some.inj hok
  have htodo := Main.iterate_stopped (p := { p with todo := finishOps }) (h.stopped hlate) t
  obtain rfl : ops = [.testRunFlag] := List.append_cancel_right (hlooping.todo.symm.trans htodo)
  exact hlooping

theorem Looping.testRunFlag_stopped (h : Looping e ls [.testRunFlag] p) (hlate : late ls = true)
    (hok : perform e t { p with todo := finishOps } .testRunFlag = some p') :
    p' = { p with todo := finishOps } ∧ Looping e (ls ++ [.op .testRunFlag t]) [] p' := by
  obtain ⟨ops, hops, rfl, hlooping⟩ := h.testRunFlag hok
  rw [h.stopped hlate] at hops
  obtain rfl : ops = [] := hops
  exact ⟨rfl, hlooping⟩

theorem exists_signalled (h : Looping e ls [.iterate] p) : ∃ ls' p',
    Step e p .sigint (p.withRunFlag false) ∧ Run (Step e) (p.withRunFlag false) ls' p' ∧
      Looping e (ls ++ .sigint :: ls') [] p' := by
  have hlive : .commonData ∈ p.live := by
    rw [h.live]
    exact mem_allObjects _
  have hlate := late_sigint ls
  have hfirst := h.sigint
  have hsecond := hfirst.iterate_stopped (t := quiet) hlate rfl
  rw [← late_op (o := .iterate) nofun _ quiet] at hlate
  obtain ⟨hkept, hthird⟩ := hsecond.testRunFlag_stopped (t := quiet) hlate
    (perform_testRunFlag quiet finishOps)
  have hrun : Run (Step e) (p.withRunFlag false)
      ([.op .iterate quiet] ++ [.op .testRunFlag quiet]) _ :=
    (Run.single (.of_perform hfirst.todo hfirst.needs rfl)).append
      (Run.single (.of_perform hsecond.todo hsecond.needs (perform_testRunFlag quiet finishOps)))
  exact ⟨[.op .iterate quiet, .op .testRunFlag quiet], _, .sigint h.handler (if_pos hlive), hrun,
    by simpa using hthird⟩

theorem exists_loop (hints : e.Ints) (h : e.Succeeds) : ∃ ls p, Run (Step e) (enter e) ls p ∧
    late ls = false ∧ Looping e ls [.iterate] p := by
  obtain ⟨ls, p, hrun, htodo, hlate⟩ := exists_started hints h
  exact ⟨ls, p, hrun, hlate, phase_loop hints hrun .turn (by simp) htodo⟩

/-- Wherever signals arrive, the next operation finds every object that it uses and every pointer
of its own that it follows, and it fails only as a call of the main loop that halts. The handler is
safe until the common data is deleted, and from then on it is not. -/
theorem process_safe (hints : e.Ints) (h : Run (Step e) (enter e) ls p) (t : Turn) :
    (p.todo = [] ∨ (∃ o p', Step e p (.op o t) p') ∨ ∃ a rest v, p.todo = .call a :: rest ∧
      (Op.call a).needs ⊆ p.live ∧ Pipeline.perform p.system a = .error v) ∧
    (p.handler = true → (signalHandler p = none ↔ p.todo <:+ finishOps.drop 9)) := by
  cases phase_run hints h with
  | starting finished left hops hstraight =>
    refine ⟨?_, fun hhandler => ?_⟩
    · cases left with
      | nil => exact .inr (.inl ⟨_, _, .of_perform hstraight.todo (List.nil_subset _) rfl⟩)
      | cons o left =>
        have hfits : fitsAll (enter e).live (finished ++ o :: left) = true := by
          rw [← hops]
          exact fitsAll_initializeOps
        obtain ⟨p', hstep, -⟩ := hstraight.exists_step hfits (by
          rintro rfl
          have hmem : Op.uninitializeInserter ∈ initializeOps := by
            rw [hops]
            simp
          simp [initializeOps] at hmem) t
        exact .inr (.inl ⟨o, p', hstep⟩)
    · refine signal_taken (starting_handler hops hstraight hhandler) ?_
      rw [hstraight.todo, List.length_append, List.length_cons]
      have h31 : finishOps.length = 31 := rfl
      omega
  | looping ops hlooping =>
    refine ⟨?_, fun _ => signal_taken ?_ ?_⟩
    · cases ops with
      | nil =>
        have hnone : Straight e p [] (.clearReturnValue :: finishOps.tail) [] p :=
          straight_finish hlooping.todo
        obtain ⟨p', hstep, -⟩ := hnone.exists_step (by
          rw [hlooping.live]
          exact fitsAll_finishOps) nofun t
        exact .inr (.inl ⟨_, p', hstep⟩)
      | cons o ops =>
        obtain ⟨p', hstep⟩ | ⟨a, v, rfl, hhalt⟩ := hlooping.exists_step t
        · exact .inr (.inl ⟨o, p', hstep⟩)
        · exact .inr (.inr ⟨a, ops ++ finishOps, v, hlooping.todo, hlooping.needs, hhalt⟩)
    · rw [hlooping.live]
      exact mem_allObjects _
    · rw [hlooping.todo, List.length_append]
      have h31 : finishOps.length = 31 := rfl
      omega
  | finishing finished left hops ls1 ls2 hls q hrun hleft hcame hstraight =>
    refine ⟨?_, fun _ => finishing_signal hops hstraight hleft.live⟩
    cases left with
    | nil => exact .inl hstraight.todo
    | cons o left =>
      have hfits : fitsAll q.live (finished ++ o :: left) = true := by
        rw [← hops, hleft.live]
        exact fitsAll_finishOps
      have hclosable : Closable p := by
        refine hstraight.closable (fun o' ho' => ?_) hleft.closable
        rw [hops]
        exact List.mem_append_left _ ho'
      obtain ⟨p', hstep, -⟩ := hstraight.exists_step hfits (fun _ => hclosable) t
      exact .inr (.inl ⟨o, p', hstep⟩)

/-- A second SIGINT, during `Uninitialize`, finds the common data deleted. -/
theorem process_safe_deleted : ∃ ls p, Run (Step favourable) (enter favourable) ls p ∧
    p.todo = finishOps.drop 9 ∧ p.handler = true ∧ signalHandler p = none := by
  obtain ⟨ls, p, hrun, -, hloop⟩ := exists_loop ints_favourable succeeds_favourable
  obtain ⟨ls', q, hsignal, hrun', hleft⟩ := exists_signalled hloop
  have hall := (hrun.snoc hsignal).append hrun'
  have hsplit : finishOps = finishOps.take 9 ++ finishOps.drop 9 := (List.take_append_drop 9 _).symm
  have hstraight : Straight favourable q [] (finishOps.take 9) (finishOps.drop 9) q :=
    ⟨by decide, hleft.todo.trans hsplit, rfl, rfl⟩
  have hfits : fitsAll q.live ([] ++ finishOps.take 9) = true := by
    rw [hleft.live]
    decide
  obtain ⟨p', hrun'', hend⟩ := hstraight.exists_run hfits (by
    intro finished' o left' p' hops hp' _
    refine hp'.closable (fun o' ho' => ?_) (Left.looped hleft).closable
    rw [hsplit, ← List.nil_append (finishOps.take 9), hops]
    exact List.mem_append_left _ (List.mem_append_left _ ho'))
  have hhandler : p'.handler = true := by
    rw [hend.handler, hleft.handler]
    rfl
  have hreach := hall.append hrun''
  have hsafe := (process_safe ints_favourable hreach quiet).2 hhandler
  exact ⟨_, p', hreach, hend.todo, hhandler, hsafe.mpr (hend.todo ▸ List.suffix_refl _)⟩

end Progress

end UdpSm.Main
