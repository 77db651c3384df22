import UdpSm.MainProgress
import UdpSm.PipelineConservation

/-! How the process ends, and what a SIGINT leaves undone. -/
namespace UdpSm.Main
open Lib InserterImplementation
open Pipeline (System Action Unset Call Well Next)
open ParserImplementation (sessionOf takenFrame)
open NetworkReceiverImplementationEFVI (Lifecycle InitializeCall UninitializeCall orCode openDriver
  allocVi allocPd initVi initMemory connectReceiver opened initializeReceiver_complete
  uninitializeReceiver_full)
open InserterLifetime (Lifetime)
open UDPJubmoFrameReceiverImplementation (Turn Turned start)

section Loop
variable {e : Environment} {ls : List Label} {p : Process}

/-- What `main` does up to a turn of its loop: every part of `Initialize` has succeeded, and, as long
as no signal has come since the inserter set the run flag, the turns are turns of the main loop. -/
theorem loop_refines (hints : e.Ints) (h : Run (Step e) (enter e) ls p)
    (htodo : p.todo = .iterate :: finishOps) : e.Succeeds ∧
      (late ls = false → ∃ rs, Run Turned (start e.started) rs p.program) ∧
      (late ls = true → p.common.applicationRunFlag = false) := by
  have hlooping := phase_loop hints h .turn (by simp) htodo
  refine ⟨hlooping.succeeds, fun hno => ?_, hlooping.stopped⟩
  cases hlooping.turns hno with
  | between rs hops hrun => exact ⟨rs, hrun⟩
  | within rs q t cs hops => exact absurd hops not_remaining_iterate

theorem loop_refines_favourable : ∃ ls p rs, Run (Step favourable) (enter favourable) ls p ∧
    p.todo = .iterate :: finishOps ∧ favourable.Succeeds ∧
      Run Turned (start favourable.started) rs p.program := by
  obtain ⟨ls, p, hrun, htodo, hlate⟩ := exists_started ints_favourable succeeds_favourable
  obtain ⟨hsucceeds, hturns, -⟩ := loop_refines ints_favourable hrun htodo
  obtain ⟨rs, hrs⟩ := hturns hlate
  exact ⟨ls, p, rs, hrun, htodo, hsucceeds, hrs⟩

end Loop

/-! What is still done after a SIGINT. -/

def operations (ls : List Label) : List Op :=
  ls.filterMap fun l =>
    match l with
    | .op o _ => some o
    | .sigint => none

theorem operations_op (ls : List Label) (o : Op) (t : Turn) :
    operations (ls ++ [.op o t]) = operations ls ++ [o] := by
  rw [operations, List.filterMap_append]
  rfl

theorem operations_sigint (ls : List Label) : operations (ls ++ [.sigint]) = operations ls := by
  rw [operations, List.filterMap_append]
  exact List.append_nil _

/-- No frame is taken and no message is queued, and `k` messages at most are taken. -/
structure Unfed (s s' : System) (k : Nat) : Prop where
  frames : s.frames <+: s'.frames
  messages : ∃ j ≤ k, s'.messages = s.messages.drop j
  session : sessionOf s'.context = sessionOf s.context
  parsed : s'.common.totalNumberOfParsedFrames = s.common.totalNumberOfParsedFrames

section Stopped
variable {s s' s'' : System} {j k : Nat}

theorem Unfed.refl (s : System) : Unfed s s 0 :=
  ⟨List.prefix_refl _, ⟨0, le_refl 0, List.drop_zero.symm⟩, rfl, rfl⟩

theorem Unfed.trans (h : Unfed s s' j) (h' : Unfed s' s'' k) : Unfed s s'' (j + k) := by
  obtain ⟨i, hi, hmessages⟩ := h.messages
  obtain ⟨i', hi', hmessages'⟩ := h'.messages
  refine ⟨h.frames.trans h'.frames, ⟨i + i', by omega, ?_⟩, h'.session.trans h.session,
    h'.parsed.trans h.parsed⟩
  rw [hmessages', hmessages, List.drop_drop]

theorem takenFrame_stopped (h : s.common.applicationRunFlag = false) :
    takenFrame s.context = none := by
  rw [takenFrame, if_neg]
  rintro ⟨-, hrun, -⟩
  have hno : s.context.common.applicationRunFlag = false := h
  rw [hno] at hrun
  cases hrun

theorem call_stopped {a : Action} (hwell : Well s) (hnext : Next s a s')
    (h : s.common.applicationRunFlag = false) : Unfed s s' (Op.call a).inserts := by
  have hnone := takenFrame_stopped h
  have hframes := Pipeline.step_frames (c := ⟨s, a⟩) rfl hnext
  have hmessages := Pipeline.step_messages (c := ⟨s, a⟩) hwell rfl hnext
  cases hnext with
  | receive => exact ⟨⟨_, hframes.symm⟩, ⟨0, Nat.zero_le _, rfl⟩, rfl, rfl⟩
  | parse R x ht =>
    have hhanded : Call.handed ⟨s, .parse⟩ = [] := rfl
    rw [Call.taken_none hnone, hhanded, List.nil_append, List.append_nil] at hframes
    rw [Call.queued_none hnone, List.append_nil] at hmessages
    refine ⟨hframes ▸ List.prefix_refl _, ⟨0, Nat.zero_le _, hmessages⟩, ?_, ?_⟩
    · cases ht with
      | idle => rfl
      | frame F ring0 hsome => rw [hnone] at hsome; cases hsome
    · cases ht with
      | idle => rfl
      | frame F ring0 hsome => rw [hnone] at hsome; cases hsome
  | idle now hempty =>
    exact ⟨List.prefix_refl _, ⟨0, Nat.zero_le _, rfl⟩, rfl, rfl⟩
  | insert now m ring hm =>
    refine ⟨List.prefix_refl _, ⟨1, le_refl 1, ?_⟩, rfl, rfl⟩
    rw [hm]
    rfl
  | writeTimestamp => exact ⟨List.prefix_refl _, ⟨0, Nat.zero_le _, rfl⟩, rfl, rfl⟩
  | readKeyboardInput => exact ⟨List.prefix_refl _, ⟨0, Nat.zero_le _, rfl⟩, rfl, rfl⟩

end Stopped

def Op.cost : Op → Nat
  | .iterate => 2
  | _ => 1

/-- After `ls` in the loop with `ops` to do, told to stop: in the loop still, or on the way out. -/
inductive Unwinding (e : Environment) (p : Process) (ls : List Label) (ops : List Op)
    (ls' : List Label) (p' : Process) : Prop where
  | loop (ops' : List Op) (k : Nat) (h : Looping e (ls ++ ls') ops' p')
      (hlate : late (ls ++ ls') = true)
      (hcost : (operations ls').length + (ops'.map Op.cost).sum ≤ (ops.map Op.cost).sum)
      (hinserts : k + (ops'.map Op.inserts).sum ≤ (ops.map Op.inserts).sum)
      (hfed : Unfed p.system p'.system k)
  | exit (k : Nat) (finished : List Op) (hops : finishOps = finished ++ p'.todo)
      (hcost : (operations ls').length + p'.todo.length ≤
        (ops.map Op.cost).sum + finishOps.length)
      (hinserts : k ≤ (ops.map Op.inserts).sum) (hfed : Unfed p.system p'.system k)

section Interrupted
variable {e : Environment} {ls ls' : List Label} {l : Label} {p p' p'' : Process} {o : Op}
  {ops ops' : List Op} {t : Turn} {k : Nat}

theorem unfed_runFlag (p : Process) (b : Bool) : Unfed p.system (p.withRunFlag b).system 0 :=
  ⟨List.prefix_refl _, ⟨0, le_refl 0, rfl⟩, rfl, rfl⟩

theorem iterate_system (t : Turn) (p : Process) : (iterate t p).system = p.system := by
  unfold iterate
  cases p.streamState <;> simp only [] <;> split_ifs <;> rfl

theorem unfed_context {b : Bool}
    (h : p''.context = { p'.context with common.commonFlagConnected := b }) :
    Unfed p'.system p''.system 0 := by
  have hframes : p''.system.frames = p'.system.frames := by
    rw [System.frames, System.frames, Process.system, Process.system, h]
  have hmessages : p''.system.messages = p'.system.messages := by
    rw [System.messages, System.messages, Process.system, Process.system, h]
  refine ⟨hframes ▸ List.prefix_refl _, ⟨0, le_refl 0, hmessages⟩, ?_, ?_⟩
  · have hsession := congrArg sessionOf h
    exact hsession
  · have hparsed := congrArg (fun x => x.common.totalNumberOfParsedFrames) h
    exact hparsed

theorem late_append_op (o : Op) (ho : o ≠ .initializeInserter) (hlate : late (ls ++ ls') = true)
    (t : Turn) : late (ls ++ (ls' ++ [.op o t])) = true := by
  rw [← List.append_assoc, late_op ho]
  exact hlate

theorem operations_cost {o : Op} {n c : Nat} (ho : o.cost = 1 + c)
    (hcost : (operations ls').length + ((o :: ops').map Op.cost).sum ≤ n) (t : Turn) :
    (operations (ls' ++ [.op o t])).length + (c + (ops'.map Op.cost).sum) ≤ n := by
  rw [operations_op, List.length_append, List.length_singleton]
  rw [List.map_cons, List.sum_cons, ho] at hcost
  omega

theorem unwinding_loop (h : Looping e (ls ++ ls') ops' p') (hlate : late (ls ++ ls') = true)
    (hcost : (operations ls').length + (ops'.map Op.cost).sum ≤ (ops.map Op.cost).sum)
    (hinserts : k + (ops'.map Op.inserts).sum ≤ (ops.map Op.inserts).sum)
    (hfed : Unfed p.system p'.system k) (hstep : Step e p' (.op o t) p'') :
    Unwinding e p ls ops (ls' ++ [.op o t]) p'' := by
  obtain ⟨rest, htodo, -, hok⟩ := hstep.head
  have hhead := h.todo.symm.trans htodo
  cases h.shape with
  | left =>
    have ho : o ∈ finishOps := by
      rw [List.nil_append] at hhead
      rw [hhead]
      simp
    obtain ⟨hcontext, hrest, -⟩ := finish_perform ho hok
    have hrest : p''.todo = rest := hrest
    refine .exit k [o] ?_ ?_ (by omega) (hfed.trans (unfed_context hcontext))
    · rw [hrest]
      exact hhead
    · rw [operations_op, List.length_append, List.length_singleton, hrest]
      have hlength := congrArg List.length hhead
      rw [List.nil_append, List.length_cons] at hlength
      omega
  | turn =>
    obtain ⟨rfl, rfl⟩ := List.cons.inj hhead
    have hnext := h.iterate_stopped hlate hok
    obtain rfl := Option.some.inj hok
    refine .loop [.testRunFlag] k (by simpa using hnext) (late_append_op .iterate nofun hlate t)
      (operations_cost (c := 1) rfl hcost t) hinserts ?_
    rw [iterate_system]
    exact hfed
  | within hremaining =>
    cases ops' with
    | nil => exact absurd hremaining (by rintro ⟨as, has, -⟩; simp at has)
    | cons o' ops' =>
      obtain ⟨rfl, rfl⟩ := List.cons.inj hhead
      have hone : o'.cost = 1 + 0 := by
        obtain ⟨rfl, -⟩ | ⟨hturn, -, -⟩ := hremaining.tail
        · rfl
        · cases o' <;> first | rfl | cases hturn
      have hcost' := operations_cost hone hcost t
      rw [Nat.zero_add] at hcost'
      rw [List.map_cons, List.sum_cons] at hinserts
      obtain ⟨rfl, rfl⟩ | ⟨hturn, -, -⟩ := hremaining.tail
      · obtain ⟨rfl, hnext⟩ := h.testRunFlag_stopped hlate hok
        exact .loop [] k (by simpa using hnext) (late_append_op .testRunFlag nofun hlate t) hcost'
          (by omega) hfed
      · cases o' with
        | call a =>
          obtain ⟨s', hcall, hmove, rfl, hnext⟩ := h.call hremaining hok
          have hopen : Open { p' with todo := ops' ++ finishOps } :=
            ⟨h.inserter.receivedDataPtr, h.inserter.sharedMemoryBufferPtr, h.inserter.file⟩
          refine .loop ops' (k + (Op.call a).inserts) (by simpa using hnext)
            (late_append_op (.call a) nofun hlate t) hcost' (by omega) ?_
          rw [withSystem_system hopen]
          exact hfed.trans (call_stopped h.well hmove (h.stopped hlate))
        | parseIfRunning =>
          obtain ⟨ops'', hops, rfl, hnext⟩ := h.parseIfRunning hremaining hok
          rw [h.stopped hlate] at hops
          obtain rfl : ops'' = ops' := hops
          exact .loop ops'' k (by simpa using hnext) (late_append_op .parseIfRunning nofun hlate t)
            hcost' (by omega) hfed
        | _ => cases hturn

theorem unwinding_step (h : Unwinding e p ls ops ls' p') (hstep : Step e p' l p'') :
    Unwinding e p ls ops (ls' ++ [l]) p'' := by
  cases l with
  | sigint =>
    obtain ⟨-, -, rfl⟩ := hstep.signalled
    cases h with
    | loop ops' k h hlate hcost hinserts hfed =>
      refine .loop ops' k (by simpa using h.sigint) ?_ ?_ hinserts (hfed.trans (unfed_runFlag p' _))
      · rw [← List.append_assoc, late_sigint]
      · rwa [operations_sigint]
    | exit k finished hops hcost hinserts hfed =>
      refine .exit k finished hops ?_ hinserts (hfed.trans (unfed_runFlag p' _))
      rwa [operations_sigint]
  | op o t =>
    cases h with
    | loop ops' k h hlate hcost hinserts hfed =>
      exact unwinding_loop h hlate hcost hinserts hfed hstep
    | exit k finished hops hcost hinserts hfed =>
      obtain ⟨rest, htodo, -, hok⟩ := hstep.head
      obtain ⟨hcontext, hrest, -⟩ := finish_perform (by rw [hops, htodo]; simp) hok
      have hrest : p''.todo = rest := hrest
      refine .exit k (finished ++ [o]) ?_ ?_ hinserts (hfed.trans (unfed_context hcontext))
      · rw [hrest, List.append_assoc, hops, htodo]
        rfl
      · rw [operations_op, List.length_append, List.length_singleton, hrest]
        rw [htodo, List.length_cons] at hcost
        omega

theorem LoopOps.cost_le (h : LoopOps ops) : ops.length ≤ (ops.map Op.cost).sum ∧
    (ops.map Op.cost).sum ≤ ops.length + 1 := by
  cases h with
  | left => exact ⟨le_refl 0, Nat.zero_le 1⟩
  | turn => exact ⟨by decide, by decide⟩
  | within h =>
    obtain ⟨as, rfl, hturn, -⟩ := h
    have hone : as.map Op.cost = as.map fun _ => 1 := by
      refine List.map_congr_left fun o ho => ?_
      have hyes := hturn o ho
      cases o <;> first | rfl | cases hyes
    rw [List.map_append, List.sum_append, hone]
    simp [Op.cost]

theorem LoopOps.inserts_le (h : LoopOps ops) : (ops.map Op.inserts).sum ≤ 1 := by
  cases h with
  | left => exact Nat.zero_le 1
  | turn => exact Nat.zero_le 1
  | within h =>
    obtain ⟨as, rfl, -, hsum⟩ := h
    rw [List.map_append, List.sum_append]
    exact hsum

/-- A process told to stop in its loop: what is left of the turn, at most one operation more, and
the way out. No frame is parsed any more, and at most one message gets its record. -/
theorem interrupted (hints : e.Ints) (h : Run (Step e) (enter e) ls p) (hloop : LoopOps ops)
    (hops : ops ≠ []) (htodo : p.todo = ops ++ finishOps) (hlate : late ls = true)
    (h' : Run (Step e) p ls' p') : Unfed p.system p'.system 1 ∧
      (operations ls').length + p'.todo.length ≤ ops.length + 1 + finishOps.length := by
  have hlooping := phase_loop hints h hloop hops htodo
  have hfirst : Unwinding e p ls ops [] p := by
    refine .loop ops 0 (by rwa [List.append_nil]) (by rwa [List.append_nil]) ?_ (by omega) (.refl _)
    exact (Nat.zero_add _).le
  have hend : Unwinding e p ls ops ls' p' :=
    Run.invariant (Unwinding e p ls ops) hfirst (fun _ _ _ _ hinv hstep => unwinding_step hinv hstep) h'
  obtain ⟨-, hcost⟩ := hloop.cost_le
  have hinserts := hloop.inserts_le
  have hmono (k : Nat) (hk : k ≤ 1) (hfed : Unfed p.system p'.system k) : Unfed p.system p'.system 1 := by
    obtain ⟨j, hj, hmessages⟩ := hfed.messages
    exact ⟨hfed.frames, ⟨j, by omega, hmessages⟩, hfed.session, hfed.parsed⟩
  cases hend with
  | loop ops' k h hlate hcost' hinserts' hfed =>
    refine ⟨hmono k (by omega) hfed, ?_⟩
    obtain ⟨hlength, -⟩ := h.shape.cost_le
    rw [h.todo, List.length_append]
    omega
  | exit k finished hfinish hcost' hinserts' hfed => exact ⟨hmono k (by omega) hfed, by omega⟩

theorem interrupted_favourable : ∃ ls p ls' p', Run (Step favourable) (enter favourable) ls p ∧
    p.todo = [.iterate] ++ finishOps ∧ Run (Step favourable) p ls' p' ∧ p'.todo = [] ∧
      (operations ls').length ≤ 33 ∧ Unfed p.system p'.system 1 := by
  obtain ⟨ls, p, hrun, -, hloop⟩ := exists_loop ints_favourable succeeds_favourable
  obtain ⟨ls', q, hsignal, hrun', hleft⟩ := exists_signalled hloop
  obtain ⟨p', hexit, hdone⟩ := exists_exit (Left.looped hleft)
  have hstopped := hrun.snoc hsignal
  have hend := hrun'.append hexit
  have htodo : (p.withRunFlag false).todo = [.iterate] ++ finishOps := hloop.todo
  obtain ⟨hfed, hcost⟩ := interrupted ints_favourable hstopped .turn (by simp) htodo
    (late_sigint ls) hend
  rw [hdone] at hcost
  exact ⟨_, _, _, p', hstopped, htodo, hend, hdone, hcost, hfed⟩

end Interrupted

/-! The way out. -/

def Process.outcome (p : Process) : Int × Lifecycle × Lifetime := (p.retVal, p.lifecycle, p.lifetime)

def stored (sts : List (Memory.Store UInt8)) (s : Lifetime) : Lifetime :=
  { s with mapping.file := s.mapping.file.map fun m => m.applyAll sts }

section Exit
variable {e : Environment} {ls : List Label} {p p' q : Process} {o : Op} {ops : List Op}

theorem performed_core (e : Environment) (ops : List Op) (q : Process) :
    (performed e ops q).core = performed e ops q := by
  induction ops using List.reverseRecOn with
  | nil => rfl
  | append_singleton ops o ih =>
    rw [performed_snoc]
    rfl

theorem performed_append (e : Environment) (ops ops' : List Op) (q : Process) :
    performed e (ops ++ ops') q = performed e ops' (performed e ops q) := by
  induction ops' using List.reverseRecOn with
  | nil =>
    rw [List.append_nil]
    exact (performed_core e ops q).symm
  | append_singleton ops' o ih => rw [← List.append_assoc, performed_snoc, performed_snoc, ih]

theorem fitsAll_left {live : List Object} {ops ops' : List Op}
    (h : fitsAll live (ops ++ ops') = true) : fitsAll live ops = true := by
  induction ops generalizing live with
  | nil => rfl
  | cons o ops ih =>
    rw [List.cons_append, fitsAll, Bool.and_eq_true] at h
    rw [fitsAll, h.1, ih h.2]
    rfl

theorem finish_straight : ∀ o ∈ finishOps, o.straight = true := by decide

theorem performed_live (hops : ∀ o ∈ ops, o ∈ finishOps) (hclosable : Closable q)
    (hfits : fitsAll q.live ops = true) : (performed e ops q).live = ops.foldl liveStep q.live := by
  induction ops using List.reverseRecOn with
  | nil => rfl
  | append_singleton ops o ih =>
    have hbefore (o' : Op) (ho' : o' ∈ ops) : o' ∈ finishOps := hops o' (by simp [ho'])
    have hlive := ih hbefore (fitsAll_left hfits)
    have hlast := fits_at hfits
    have hstraight := finish_straight o (hops o (by simp))
    rw [← hlive] at hlast
    obtain ⟨p, hp⟩ := perform_fits (e := e) (t := quiet) hstraight hlast
      fun _ => performed_closable hbefore hclosable
    have hnext := perform_live hstraight hp
    rw [performed_snoc, hp, List.foldl_append, ← hlive]
    exact hnext

theorem performed_deletes (e : Environment) (os : List Object) (q : Process) :
    (performed e (os.map .delete) q).outcome = q.outcome ∧
      (performed e (os.map .delete) q).returnValue = q.returnValue := by
  induction os using List.reverseRecOn with
  | nil => exact ⟨rfl, rfl⟩
  | append_singleton os o ih =>
    rw [List.map_append, List.map_singleton, performed_snoc, ← ih.1, ← ih.2]
    simp only [perform]
    split_ifs
    · exact ⟨rfl, rfl⟩
    · exact ⟨rfl, rfl⟩

theorem performed_gone (hops : ∀ o ∈ ops, o ∈ uninitializeOps) (hlive : q.live = []) :
    (performed e ops q).outcome = q.outcome ∧ (performed e ops q).live = [] := by
  induction ops using List.reverseRecOn with
  | nil => exact ⟨rfl, hlive⟩
  | append_singleton ops o ih =>
    obtain ⟨houtcome, hgone⟩ := ih fun o ho => hops o (by simp [ho])
    rw [performed_snoc, ← houtcome]
    have ho := hops o (by simp)
    cases o with
    | clearReturnValue => exact ⟨rfl, hgone⟩
    | uninitializeInserter => simpa [perform, uninitializeInserter, hgone] using ⟨rfl, hgone⟩
    | uninitializeReceiver => simpa [perform, uninitializeReceiver, hgone] using ⟨rfl, hgone⟩
    | delete o =>
      simp only [perform, hgone, List.not_mem_nil, false_implies, if_true, List.erase_nil]
      exact ⟨rfl, rfl⟩
    | _ => simp [uninitializeOps] at ho

theorem performed_inserter {r : Int × Lifetime × List (Memory.Store UInt8)}
    (hlive : q.live = allObjects) (hr : InserterLifetime.uninitializeInserter q.lifetime = some r) :
    (performed e [.clearReturnValue, .uninitializeInserter] q).outcome =
      (q.retVal, q.lifecycle, stored r.2.2 r.2.1) ∧
    (performed e [.clearReturnValue, .uninitializeInserter] q).returnValue = r.1 := by
  have hsplit : [Op.clearReturnValue, .uninitializeInserter] = [.clearReturnValue] ++
    [.uninitializeInserter] := rfl
  have hmem : Object.inserter ∈ (performed e [.clearReturnValue] q).live := by
    have hsame : (performed e [.clearReturnValue] q).live = q.live := rfl
    rw [hsame, hlive]
    exact mem_allObjects _
  have huses : Object.inserter.uses ⊆ (performed e [.clearReturnValue] q).live := by
    have hsame : (performed e [.clearReturnValue] q).live = q.live := rfl
    rw [hsame, hlive]
    exact fun o _ => mem_allObjects o
  have hlifetime : (performed e [.clearReturnValue] q).lifetime = q.lifetime := rfl
  rw [hsplit, performed_snoc, perform, if_pos (fun _ => huses), uninitializeInserter, if_pos hmem,
    hlifetime, hr]
  exact ⟨rfl, rfl⟩

def closed (u : UninitializeCall) (s : Lifecycle) : Int × Lifecycle :=
  NetworkReceiverImplementationEFVI.uninitializeReceiver u s

theorem performed_receiver (hlive : .networkReceiver ∈ q.live) (hdata : .commonData ∈ q.live) :
    (performed e [.uninitializeReceiver] q).outcome =
      (q.retVal, (closed e.uninitializeCall q.lifecycle).2, q.lifetime) ∧
    (performed e [.uninitializeReceiver] q).returnValue =
      orCode q.returnValue (closed e.uninitializeCall q.lifecycle).1 := by
  have hsplit : [Op.uninitializeReceiver] = [] ++ [.uninitializeReceiver] := rfl
  have hmem : Object.networkReceiver ∈ (performed e [] q).live := hlive
  have huses : Object.networkReceiver.uses ⊆ (performed e [] q).live :=
    List.cons_subset.mpr ⟨hdata, List.nil_subset _⟩
  rw [hsplit, performed_snoc, perform, if_pos (fun _ => huses), uninitializeReceiver, if_pos hmem]
  exact ⟨rfl, rfl⟩

theorem performed_keep (q : Process) : (performed e [.keepReturnValue] q).outcome =
    (q.returnValue, q.lifecycle, q.lifetime) ∧ (performed e [.keepReturnValue] q).live = q.live :=
  ⟨rfl, rfl⟩

theorem exit_outcome {r : Int × Lifetime × List (Memory.Store UInt8)} (hlive : q.live = allObjects)
    (hclosable : Closable q) (hr : InserterLifetime.uninitializeInserter q.lifetime = some r) :
    (performed e finishOps q).outcome = (orCode r.1 (closed e.uninitializeCall q.lifecycle).1,
      (closed e.uninitializeCall q.lifecycle).2, stored r.2.2 r.2.1) := by
  have hgo (k : Nat) : (performed e (finishOps.take k) q).live =
      (finishOps.take k).foldl liveStep allObjects := by
    rw [performed_live (fun o ho => List.mem_of_mem_take ho) hclosable, hlive]
    rw [hlive]
    have hfits := fitsAll_finishOps
    rw [← List.take_append_drop k finishOps] at hfits
    exact fitsAll_left hfits
  -- the inserter, its deletion, the receiver, the other deletions, and the second time
  let q1 := performed e [.clearReturnValue, .uninitializeInserter] q
  let q2 := performed e ([Object.inserter, .parser].map .delete) q1
  let q3 := performed e [.uninitializeReceiver] q2
  let q4 := performed e ([Object.networkReceiver, .ringBuffer0, .ringBuffer1, .commonData,
    .keyboard, .percentile, .tsc, .processor, .arguments, .logger].map .delete) q3
  have hq2 : performed e (finishOps.take 4) q = q2 :=
    performed_append e [.clearReturnValue, .uninitializeInserter] _ q
  have hq3 : performed e (finishOps.take 5) q = q3 :=
    (performed_append e (finishOps.take 4) _ q).trans (congrArg _ hq2)
  have hq4 : performed e (finishOps.take 15) q = q4 :=
    (performed_append e (finishOps.take 5) _ q).trans (congrArg _ hq3)
  have hall : performed e finishOps q =
      performed e uninitializeOps (performed e [.keepReturnValue] q4) := by
    rw [← hq4, ← performed_append, ← performed_append]
    rfl
  obtain ⟨h1, h1'⟩ := performed_inserter (e := e) hlive hr
  obtain ⟨h2, h2'⟩ := performed_deletes e [.inserter, .parser] q1
  have hthere : .networkReceiver ∈ q2.live ∧ .commonData ∈ q2.live := by
    rw [← hq2, hgo 4]
    decide
  obtain ⟨h3, h3'⟩ := performed_receiver (e := e) hthere.1 hthere.2
  obtain ⟨h4, h4'⟩ := performed_deletes e [.networkReceiver, .ringBuffer0, .ringBuffer1, .commonData,
    .keyboard, .percentile, .tsc, .processor, .arguments, .logger] q3
  have hgone : q4.live = [] := by
    rw [← hq4, hgo 15]
    decide
  obtain ⟨h5, h5'⟩ := performed_keep (e := e) q4
  rw [hall, (performed_gone (fun _ ho => ho) (h5'.trans hgone)).1, h5]
  have hinserter : q2.outcome = (q.retVal, q.lifecycle, stored r.2.2 r.2.1) := h2.trans h1
  have hlifecycle : q2.lifecycle = q.lifecycle := congrArg (fun x => x.2.1) hinserter
  have hlifetime : q2.lifetime = stored r.2.2 r.2.1 := congrArg (fun x => x.2.2) hinserter
  have hreceiver := h4.trans h3
  have hvalue : q4.returnValue = orCode r.1 (closed e.uninitializeCall q.lifecycle).1 := by
    have hfirst : q2.returnValue = r.1 := h2'.trans h1'
    rw [h4', h3', hfirst, hlifecycle]
  rw [hlifecycle, hlifetime] at hreceiver
  have hrest : (q4.lifecycle, q4.lifetime) =
      ((closed e.uninitializeCall q.lifecycle).2, stored r.2.2 r.2.1) :=
    congrArg (fun x => x.2) hreceiver
  rw [hvalue]
  exact congrArg (Prod.mk _) hrest

def shutdownStores : List (Memory.Store UInt8) :=
  [⟨writerFlagsPosition, leBytes 4 (htonl writerFlagsShutdown).toNat⟩]

theorem shutdown_flags (m : Memory UInt8) :
    writerFlagsField (m.applyAll shutdownStores) = writerFlagsShutdown := by
  have hload := Memory.load_store_self m writerFlagsPosition (leBytes 4 (htonl writerFlagsShutdown).toNat)
  rw [leBytes_length] at hload
  have hfield : writerFlagsField (m.applyAll shutdownStores) =
      UInt32.ofNat (ofBe (leBytes 4 (htonl writerFlagsShutdown).toNat)) :=
    congrArg (fun bs => UInt32.ofNat (ofBe bs)) hload
  rw [hfield]
  decide

/-! An `Initialize` of the receiver releases nothing. -/

theorem openDriver_released (c : InitializeCall) (s : Lifecycle) :
    (openDriver c s).2.ledger.released = s.ledger.released := by
  unfold openDriver
  split_ifs <;> rfl

theorem allocVi_released (c : InitializeCall) (s : Lifecycle) :
    (allocVi c s).2.ledger.released = s.ledger.released := by
  unfold allocVi
  split_ifs <;> rfl

theorem allocPd_released (c : InitializeCall) (r : Int × Lifecycle) :
    (allocPd c r).2.ledger.released = r.2.ledger.released := by
  unfold allocPd
  split_ifs
  · exact allocVi_released c _
  · rfl
  · rfl

theorem initVi_released (c : InitializeCall) (s : Lifecycle) :
    (initVi c s).2.ledger.released = s.ledger.released := by
  have hpd := (allocPd_released c (openDriver c s)).trans (openDriver_released c s)
  unfold initVi
  simp only []
  split_ifs
  · exact hpd
  · exact hpd

theorem initMemory_released (c : InitializeCall) (s : Lifecycle) :
    (initMemory c s).2.ledger.released = s.ledger.released := by
  simp only [initMemory]
  split_ifs <;> rfl

theorem connectReceiver_released (c : InitializeCall) (s : Lifecycle) :
    (connectReceiver c s).2.ledger.released = s.ledger.released := by
  have hvi := initVi_released c s
  have hmemory := (initMemory_released c (initVi c s).2).trans hvi
  simp only [connectReceiver]
  split_ifs
  · exact hmemory
  · exact hmemory
  · exact hmemory
  · exact hvi

theorem received_released (e : Environment) : (received e).2.ledger.released = [] := by
  rw [received_eq]
  split_ifs
  · exact connectReceiver_released _ _
  · rfl

/-- The end of a process whose `Uninitialize` found `q`. -/
structure Exited (e : Environment) (q p : Process) : Prop where
  live : p.live = []
  retVal : p.retVal = orCode (if (openedFile e).1 = 0 then 0 else -1)
    (closed e.uninitializeCall (received e).2).1
  released : (receiverCall e).Complete →
    p.lifecycle.ledger.released.Perm (List.range p.lifecycle.ledger.acquired.length)
  kept : (received e).1 ≠ 0 → p.lifecycle.ledger = ⟨(received e).2.ledger.acquired, []⟩
  file : (openedFile e).1 = 0 →
    p.lifetime.mapping.file = some (q.system.file.applyAll shutdownStores)
  flags : (openedFile e).1 = 0 → ∀ m ∈ p.lifetime.mapping.file, writerFlagsField m = writerFlagsShutdown

theorem closed_released (hc : (receiverCall e).Complete) :
    (closed e.uninitializeCall (received e).2).2.ledger.released.Perm
      (List.range (closed e.uninitializeCall (received e).2).2.ledger.acquired.length) := by
  have hidle : e.lifecycle.constructed.Idle := ⟨rfl, rfl, rfl, rfl⟩
  have hreceived : (received e).2 = opened (receiverCall e) e.lifecycle.constructed :=
    congrArg Prod.snd (initializeReceiver_complete hidle hc)
  have hfull : (opened (receiverCall e) e.lifecycle.constructed).Full :=
    ⟨hc.commonData, rfl, rfl, rfl, rfl, hc.dh⟩
  obtain ⟨-, hledger⟩ := uninitializeReceiver_full hfull e.uninitializeCall
  have hsound : (opened (receiverCall e) e.lifecycle.constructed).Sound :=
    Lifecycle.Sound.opened hc (List.Perm.refl [])
  rw [closed, hreceived, hledger]
  cases hsound with
  | idle hs => exact absurd hs.driver (by rw [hfull.driver]; decide)
  | full _ hperm => exact hperm

theorem closed_kept (h : (received e).1 ≠ 0) :
    (closed e.uninitializeCall (received e).2).2.ledger = ⟨(received e).2.ledger.acquired, []⟩ := by
  have hoff : (received e).2.initialized = false := by
    obtain ⟨hzero, -, -⟩ | ⟨hoff, -, -⟩ := received_outcome e
    · exact absurd hzero h
    · exact hoff
  have hledger : (closed e.uninitializeCall (received e).2).2.ledger = (received e).2.ledger := by
    rw [closed, NetworkReceiverImplementationEFVI.uninitializeReceiver, if_neg (by simp [hoff])]
  rw [hledger, ← received_released e]

theorem Left.exited (hleft : Left e q) (h : Straight e q finishOps [] [] p) : Exited e q p := by
  have hlive : p.live = [] := by
    rw [h.live, hleft.live]
    decide
  have hcore : p.core.outcome = (performed e finishOps q).outcome :=
    congrArg Process.outcome h.core
  have houtcome : p.outcome = (performed e finishOps q).outcome := hcore
  obtain ⟨hopened, hopen⟩ | ⟨hopened, hnull⟩ := hleft.inserter
  · have hr : InserterLifetime.uninitializeInserter q.lifetime =
        some (0, { q.lifetime with receivedDataPtr := false }, shutdownStores) := by
      rw [InserterLifetime.uninitializeInserter, if_pos hopen.receivedDataPtr,
        if_pos hopen.sharedMemoryBufferPtr]
      rfl
    rw [exit_outcome hleft.live hleft.closable hr, hleft.lifecycle] at houtcome
    have hlifecycle : p.lifecycle = _ := congrArg (fun x => x.2.1) houtcome
    have hfile : p.lifetime.mapping.file = some (q.system.file.applyAll shutdownStores) := by
      have hlifetime : p.lifetime = _ := congrArg (fun x => x.2.2) houtcome
      rw [hlifetime, stored]
      simp only [hopen.file]
      rfl
    refine ⟨hlive, ?_, fun hc => ?_, fun hfailed => ?_, fun _ => hfile, fun _ m hm => ?_⟩
    · rw [if_pos hopened]
      exact congrArg Prod.fst houtcome
    · rw [hlifecycle]
      exact closed_released hc
    · rw [hlifecycle]
      exact closed_kept hfailed
    · rw [hfile] at hm
      obtain rfl := Option.some.inj hm
      exact shutdown_flags _
  · have hr : InserterLifetime.uninitializeInserter q.lifetime = some (-1, q.lifetime, []) := by
      rw [InserterLifetime.uninitializeInserter, if_neg (by simp [hnull])]
    rw [exit_outcome hleft.live hleft.closable hr, hleft.lifecycle] at houtcome
    have hlifecycle : p.lifecycle = _ := congrArg (fun x => x.2.1) houtcome
    refine ⟨hlive, ?_, fun hc => ?_, fun hfailed => ?_, fun hzero => absurd hzero hopened,
      fun hzero => absurd hzero hopened⟩
    · rw [if_neg hopened]
      exact congrArg Prod.fst houtcome
    · rw [hlifecycle]
      exact closed_released hc
    · rw [hlifecycle]
      exact closed_kept hfailed

/-- A process that has come to its end, whatever signals came when. Where no signal came after the
run flag was set, the file is that of turns of the main loop, but for the flags. -/
theorem process_exits (hints : e.Ints) (h : Run (Step e) (enter e) ls p) (hdone : p.todo = []) :
    ∃ ls1 ls2 q, ls = ls1 ++ ls2 ∧ Run (Step e) (enter e) ls1 q ∧ q.todo = finishOps ∧
      Exited e q p ∧ (e.Succeeds → late ls1 = false →
        ∃ rs, Run Turned (start e.started) rs q.program) := by
  cases phase_run hints h with
  | starting finished left hops hstraight =>
    rw [hstraight.todo] at hdone
    simp at hdone
  | looping ops hlooping =>
    rw [hlooping.todo] at hdone
    have hlength := congrArg List.length hdone
    rw [List.length_append, List.length_nil] at hlength
    have h31 : finishOps.length = 31 := rfl
    omega
  | finishing finished left hops ls1 ls2 hls q hrun hleft hcame hstraight =>
    have hnothing : left = [] := by
      have htodo := hstraight.todo
      rw [hdone, List.append_nil] at htodo
      exact htodo.symm
    rw [hnothing, List.append_nil] at hops
    rw [hnothing, ← hops] at hstraight
    refine ⟨ls1, ls2, q, hls, hrun, hleft.todo, hleft.exited hstraight, fun hsucceeds hno => ?_⟩
    obtain hlooping | hfailed := hcame
    · cases hlooping.turns hno with
      | between rs _ hturns => exact ⟨rs, hturns⟩
      | within rs q' t cs hremaining => exact absurd hremaining (by rintro ⟨as, has, -⟩; simp at has)
    · exact absurd hsucceeds hfailed

theorem process_exits_favourable : ∃ ls p q, Run (Step favourable) (enter favourable) ls p ∧
    p.todo = [] ∧ Exited favourable q p := by
  obtain ⟨ls, p, hrun, -, hloop⟩ := exists_loop ints_favourable succeeds_favourable
  obtain ⟨ls', q, hsignal, hrun', hleft⟩ := exists_signalled hloop
  obtain ⟨p', hexit, hdone⟩ := exists_exit (Left.looped hleft)
  have hend := ((hrun.snoc hsignal).append hrun').append hexit
  obtain ⟨-, -, q', -, -, -, hexited, -⟩ := process_exits ints_favourable hend hdone
  exact ⟨_, p', q', hend, hdone, hexited⟩

end Exit

end UdpSm.Main
