import KickOS.Kernel.Core
import KickOS.Kernel.Thread

/-! What the kernel leaves of the capabilities.

`tables` keeps of a state what the capabilities are made of: the tables and authority words of the threads, the pool of
the endpoints with the holders each one counts, and the published console; and the badge each thread last parked a
message with. Wakes, parks and their unwinding, notifications, mutexes and the bookkeeping of tasks keep it. -/

namespace KickOS

/-- What a thread has of the capabilities: its table, its authority word and the badge of its message. -/
def Thread.tables (x : Thread) : CapTable × Nat × Nat := (x.caps, x.authority, x.ipc.badge)

/-- The part of a state the capabilities are made of. -/
structure Tables where
  thr : Tid → CapTable × Nat × Nat
  endpoints : Pool
  recvHolders : Eid → Nat
  handoutHolders : Eid → Nat
  stdoutTarget : Option Nat

namespace Kernel

variable {s s' : Kernel} {t c w u : Tid} {m : Rid} {e : Eid} {n : Nid} {k : TaskId}

def tables (s : Kernel) : Tables where
  thr t := (s.thr t).tables
  endpoints := s.endpoints
  recvHolders e := (s.ep e).recvHolders
  handoutHolders e := (s.ep e).handoutHolders
  stdoutTarget := s.stdoutTarget

theorem tables_of_core (h : s'.core = s.core) : s'.tables = s.tables := core_read tables h fun _ => rfl

theorem thr_of_tables (h : s'.tables = s.tables) (t : Tid) : (s'.thr t).tables = (s.thr t).tables :=
  congrFun (congrArg Tables.thr h) t

theorem caps_of_tables (h : s'.tables = s.tables) (t : Tid) : (s'.thr t).caps = (s.thr t).caps :=
  congrArg Prod.fst (thr_of_tables h t)

theorem authority_of_tables (h : s'.tables = s.tables) (t : Tid) : (s'.thr t).authority = (s.thr t).authority :=
  congrArg (fun x => x.2.1) (thr_of_tables h t)

theorem badge_of_tables (h : s'.tables = s.tables) (t : Tid) : (s'.thr t).ipc.badge = (s.thr t).ipc.badge :=
  congrArg (fun x => x.2.2) (thr_of_tables h t)

theorem endpoints_of_tables (h : s'.tables = s.tables) : s'.endpoints = s.endpoints := congrArg Tables.endpoints h

theorem stdoutTarget_of_tables (h : s'.tables = s.tables) : s'.stdoutTarget = s.stdoutTarget :=
  congrArg Tables.stdoutTarget h

/-! ### Writes to one record -/

theorem onThr_tables {f : Thread → Thread} (h : (f (s.thr t)).tables = (s.thr t).tables) :
    (s.onThr t f).tables = s.tables := by
  have h1 : (fun u => (Function.update s.thr t (f (s.thr t)) u).tables) = fun u => (s.thr u).tables := by
    funext u
    by_cases hu : u = t
    · subst hu; simpa using h
    · simp [hu]
  simp only [tables, onThr, setThr, h1]

theorem onEp_tables {f : Endpoint → Endpoint} (hr : (f (s.ep e)).recvHolders = (s.ep e).recvHolders)
    (hh : (f (s.ep e)).handoutHolders = (s.ep e).handoutHolders) : (s.onEp e f).tables = s.tables := by
  have h1 : (fun i => (Function.update s.ep e (f (s.ep e)) i).recvHolders) = fun i => (s.ep i).recvHolders := by
    funext i
    by_cases hi : i = e
    · subst hi; simpa using hr
    · simp [hi]
  have h2 : (fun i => (Function.update s.ep e (f (s.ep e)) i).handoutHolders) = fun i => (s.ep i).handoutHolders := by
    funext i
    by_cases hi : i = e
    · subst hi; simpa using hh
    · simp [hi]
  simp only [tables, onEp, h1, h2]

@[simp] theorem onNote_tables {f : Notification → Notification} : (s.onNote n f).tables = s.tables := rfl

@[simp] theorem onRec_tables {f : WordRecord → WordRecord} : (s.onRec m f).tables = s.tables := rfl

@[simp] theorem onTask_tables {f : Task → Task} : (s.onTask k f).tables = s.tables := rfl

@[simp] theorem setWord_tables {key : Key} {v : Word} : (s.setWord key v).tables = s.tables := rfl

@[simp] theorem assert_tables {ok : Bool} : (s.assert ok).tables = s.tables := rfl

@[simp] theorem onQueue_tables {q : Queue} {f : List Tid → List Tid} : (s.onQueue q f).tables = s.tables := by
  cases q with
  | send e => exact onEp_tables rfl rfl
  | recv e => exact onEp_tables rfl rfl
  | record m => rfl

/-! ### The scheduler -/

@[simp] theorem setPrio_tables {p : Nat} : (s.setPrio t p).tables = s.tables := tables_of_core setPrio_core

@[simp] theorem recompute_tables : (s.recompute t).tables = s.tables := tables_of_core recompute_core

@[simp] theorem reschedule_tables : s.reschedule.tables = s.tables := tables_of_core reschedule_core

@[simp] theorem makeReady_tables : (s.makeReady t).tables = s.tables := tables_of_core makeReady_core

@[simp] theorem wake_tables : (s.wake t).tables = s.tables := tables_of_core wake_core

@[simp] theorem wakeNoResched_tables : (s.wakeNoResched t).1.tables = s.tables := tables_of_core wakeNoResched_core

@[simp] theorem reschedAfterWake_tables : (s.reschedAfterWake t).tables = s.tables := tables_of_core reschedAfterWake_core

@[simp] theorem clearWaitEdge_tables : (s.clearWaitEdge t).tables = s.tables := onThr_tables rfl

@[simp] theorem wqPopHighest_tables {q : Queue} : (s.wqPopHighest q).1.tables = s.tables := by
  unfold wqPopHighest
  split
  · rfl
  · exact clearWaitEdge_tables.trans onQueue_tables

/-! ### Donors, records and the park unwind -/

@[simp] theorem replyDonorUnpark_tables : (s.replyDonorUnpark c t).1.tables = s.tables := by
  unfold replyDonorUnpark
  split_ifs
  · exact clearWaitEdge_tables.trans (onThr_tables rfl)
  · rfl

@[simp] theorem endpointServerClear_tables : (s.endpointServerClear e).tables = s.tables := by
  unfold endpointServerClear
  split
  · rfl
  · split_ifs
    · exact (onEp_tables rfl rfl).trans (onThr_tables rfl)
    · rfl

@[simp] theorem heldRemove_tables : (s.heldRemove t m).tables = s.tables := onThr_tables rfl

@[simp] theorem recordFree_tables : (s.recordFree m).tables = s.tables := rfl

@[simp] theorem transferTo_tables {r : Answer} : (s.transferTo m w r).tables = s.tables := by
  unfold transferTo heldPush
  exact (onThr_tables rfl).trans ((onThr_tables rfl).trans onRec_tables)

@[simp] theorem wordWaiterLeft_tables : (s.wordWaiterLeft m).tables = s.tables := by
  unfold wordWaiterLeft
  split_ifs
  · dsimp only
    split
    · exact recordFree_tables.trans heldRemove_tables
    · exact recordFree_tables
  · rfl

@[simp] theorem lowerChain_tables (fuel : Nat) (s : Kernel) (o : Tid) : (lowerChain fuel s o).tables = s.tables := by
  induction fuel generalizing s o with
  | zero => rfl
  | succ fuel ih =>
    unfold lowerChain
    dsimp only
    split_ifs
    · rfl
    · split
      · exact setPrio_tables
      · split
        · exact setPrio_tables
        · exact (ih _ _).trans setPrio_tables

@[simp] theorem unlinkQueue_tables : (s.unlinkQueue t).tables = s.tables := by
  unfold unlinkQueue
  split
  · rfl
  · exact onQueue_tables

@[simp] theorem unwind_tables : (s.unwind t).tables = s.tables := by
  unfold unwind
  split
  · dsimp only
    split
    · exact (onThr_tables rfl).trans unlinkQueue_tables
    · split_ifs
      · exact recompute_tables.trans ((onThr_tables rfl).trans unlinkQueue_tables)
      · exact (onThr_tables rfl).trans unlinkQueue_tables
  · exact (onThr_tables rfl).trans unlinkQueue_tables
  · exact recompute_tables.trans ((onThr_tables rfl).trans replyDonorUnpark_tables)
  · dsimp only
    split
    · exact wordWaiterLeft_tables.trans unlinkQueue_tables
    · exact (lowerChain_tables _ _ _).trans (wordWaiterLeft_tables.trans unlinkQueue_tables)
  · exact wordWaiterLeft_tables.trans unlinkQueue_tables
  all_goals rfl

@[simp] theorem threadAbortPark_tables {r : Answer} : (s.threadAbortPark t r).tables = s.tables :=
  wake_tables.trans ((onThr_tables rfl).trans (clearWaitEdge_tables.trans unwind_tables))

@[simp] theorem handOver_tables {r : Answer} : (s.handOver m w r).tables = s.tables := by
  unfold handOver
  dsimp only
  split_ifs
  · exact recordFree_tables.trans (heldRemove_tables.trans (transferTo_tables.trans wqPopHighest_tables))
  · exact transferTo_tables.trans wqPopHighest_tables

@[simp] theorem mutexOwnerExit_tables (fuel : Nat) (s : Kernel) : (mutexOwnerExit c fuel s).tables = s.tables := by
  induction fuel generalizing s with
  | zero => rfl
  | succ fuel ih =>
    unfold mutexOwnerExit
    split
    · rfl
    · dsimp only
      split
      · exact heldRemove_tables
      · exact (ih _).trans (wake_tables.trans (handOver_tables.trans heldRemove_tables))

/-! ### Senders, cancellation and notifications -/

@[simp] theorem answerSenders_tables (e : Eid) (r : Errno) (fuel : Nat) (s : Kernel) :
    (answerSenders e r fuel s).tables = s.tables := by
  induction fuel generalizing s with
  | zero => rfl
  | succ fuel ih =>
    have hp := wqPopHighest_tables (s := s) (q := .send e)
    unfold answerSenders
    rcases hw : s.wqPopHighest (.send e) with ⟨s₁, _ | t⟩
    · rw [hw] at hp
      exact hp
    · rw [hw] at hp
      exact (ih _).trans (wake_tables.trans ((onThr_tables rfl).trans hp))

@[simp] theorem refuseSenders_tables : (s.refuseSenders e).tables = s.tables := answerSenders_tables ..

@[simp] theorem threadCancelKind_tables {kind : CancelKind} : (s.threadCancelKind t kind).tables = s.tables := by
  have he : (s.cancelEscalate t kind).1.tables = s.tables := by
    unfold cancelEscalate
    dsimp only
    split_ifs
    · rfl
    · exact onThr_tables (f := fun x => { x with cancelKind := kind }) rfl
  unfold threadCancelKind
  rcases hres : s.cancelEscalate t kind with ⟨s₁, _ | _⟩
  · rw [hres] at he
    exact he
  · rw [hres] at he
    dsimp only
    split_ifs
    · exact he
    · exact threadAbortPark_tables.trans he

@[simp] theorem cancelGroupFrom_tables (k : TaskId) (fuel : Nat) (i : Tid) (s : Kernel) :
    (cancelGroupFrom k fuel i s).tables = s.tables := by
  induction fuel generalizing i s with
  | zero => rfl
  | succ fuel ih =>
    unfold cancelGroupFrom
    split_ifs
    · exact (ih _ _).trans threadCancelKind_tables
    · exact ih _ _

@[simp] theorem taskCancelGroup_tables : (s.taskCancelGroup k).tables = s.tables := cancelGroupFrom_tables ..

@[simp] theorem raiseTake_tables {bit : Nat} : (s.raiseTake n bit).1.tables = s.tables := by
  unfold raiseTake
  dsimp only
  split
  · rfl
  · split_ifs
    · rfl
    · exact clearWaitEdge_tables.trans onNote_tables
    · split
      · exact (onThr_tables (f := fun x => { x with waitResult := .error .enotify }) rfl).trans
          (clearWaitEdge_tables.trans unlinkQueue_tables)
      · rfl
    · split <;> rfl

@[simp] theorem notifyRaise_tables {bit : Nat} : (s.notifyRaise n bit).tables = s.tables := by
  have hr : (s.raiseTake n bit).1.tables = s.tables := raiseTake_tables
  unfold notifyRaise
  rcases hw : s.raiseTake n bit with ⟨s₁, _ | t⟩
  · rw [hw] at hr
    exact hr
  · rw [hw] at hr
    exact wake_tables.trans hr

@[simp] theorem notifyRefDrop_tables {obj : Nat} : (s.notifyRefDrop obj).tables = s.tables := by
  unfold notifyRefDrop
  split
  · rfl
  · dsimp only
    split_ifs <;> rfl

@[simp] theorem notifyUnbindSelf_tables : (s.notifyUnbindSelf c).tables = s.tables := by
  unfold notifyUnbindSelf
  split
  · rfl
  · split
    · exact onThr_tables rfl
    · exact notifyRefDrop_tables.trans ((onThr_tables rfl).trans onNote_tables)

/-! ### Tasks -/

@[simp] theorem watchRaise_tables : (s.watchRaise k).tables = s.tables := by
  unfold watchRaise
  split
  · rfl
  · exact notifyRaise_tables

@[simp] theorem capConsoleTaskEnded_tables : s.capConsoleTaskEnded.tables = s.tables := by
  unfold capConsoleTaskEnded
  split
  · rfl
  · exact refuseSenders_tables.trans (onEp_tables rfl rfl)

@[simp] theorem consoleLeave_tables : (s.consoleLeave k).tables = s.tables := by
  unfold consoleLeave
  split_ifs
  · exact capConsoleTaskEnded_tables
  · rfl

@[simp] theorem markEnded_tables : (s.markEnded k).tables = s.tables := by
  unfold markEnded
  split_ifs
  · rfl
  · exact watchRaise_tables.trans consoleLeave_tables

@[simp] theorem taskEnd_tables {left : Option TaskId} : (s.taskEnd left).tables = s.tables := by
  unfold taskEnd
  split
  · rfl
  · dsimp only
    split_ifs
    · exact taskCancelGroup_tables.trans markEnded_tables
    · exact markEnded_tables

@[simp] theorem freeTask_tables : (s.freeTask k).tables = s.tables := consoleLeave_tables

@[simp] theorem taskRelease_tables {left : Option TaskId} : (s.taskRelease left).1.tables = s.tables := by
  unfold taskRelease
  split
  · rfl
  · dsimp only
    split_ifs
    · rfl
    · rfl
    · rfl
    · exact freeTask_tables

@[simp] theorem addInactiveFrom_tables (k : TaskId) (fuel : Nat) (i : Tid) (s : Kernel) :
    (addInactiveFrom k fuel i s).tables = s.tables := by
  induction fuel generalizing i s with
  | zero => rfl
  | succ fuel ih =>
    unfold addInactiveFrom
    split_ifs
    · exact (ih _ _).trans (threadCancelKind_tables.trans makeReady_tables)
    · exact ih _ _

@[simp] theorem taskDropHold_tables : (s.taskDropHold k).tables = s.tables := by
  unfold taskDropHold
  dsimp only
  split_ifs
  · rfl
  · exact freeTask_tables.trans (addInactiveFrom_tables ..)
  · exact addInactiveFrom_tables ..

@[simp] theorem orphanFrom_tables (t : Tid) (fuel : Nat) (k : TaskId) (s : Kernel) :
    (orphanFrom t fuel k s).tables = s.tables := by
  induction fuel generalizing k s with
  | zero => rfl
  | succ fuel ih =>
    unfold orphanFrom
    split_ifs
    · exact (ih _ _).trans taskDropHold_tables
    · exact ih _ _

@[simp] theorem taskSweepDone_tables {left : Option TaskId} {gen : Nat} : (s.taskSweepDone left gen).1.tables = s.tables := by
  unfold taskSweepDone
  split
  · rfl
  · dsimp only
    split_ifs <;> rfl

@[simp] theorem taskReportDeath_tables {left : Option TaskId} {gen : Nat} :
    (s.taskReportDeath left gen).tables = s.tables := by
  unfold taskReportDeath
  split
  · rfl
  · split_ifs
    · rfl
    · exact watchRaise_tables

@[simp] theorem wakeWaitersFrom_tables (c : Tid) (left : Option TaskId) (dead : Bool) (fuel : Nat) (i : Tid) (s : Kernel) :
    (wakeWaitersFrom c left dead fuel i s).tables = s.tables := by
  induction fuel generalizing i s with
  | zero => rfl
  | succ fuel ih =>
    unfold wakeWaitersFrom
    split_ifs
    · exact (ih _ _).trans threadAbortPark_tables
    · exact ih _ _

theorem ite_tables {p : Prop} [Decidable p] {a b : Kernel} (ha : a.tables = s.tables) (hb : b.tables = s.tables) :
    (if p then a else b).tables = s.tables := by
  split_ifs
  · exact ha
  · exact hb

theorem exitBegin_tables {endsTask : Bool} : (s.exitBegin c endsTask).tables = s.tables := by
  unfold exitBegin
  dsimp only
  have h1 : ((s.onThr c fun x => { x with dying := true }).notifyUnbindSelf c).tables = s.tables :=
    notifyUnbindSelf_tables.trans (onThr_tables rfl)
  have h2 : ∀ (k : Kernel) (left : Option TaskId) (fuel : Nat), k.tables = s.tables →
      ((mutexOwnerExit c fuel k).taskRelease left).1.tables = s.tables := fun k left fuel hk =>
    taskRelease_tables.trans ((mutexOwnerExit_tables ..).trans hk)
  refine (onThr_tables rfl).trans ((orphanFrom_tables ..).trans ?_)
  refine ite_tables ((onThr_tables rfl).trans (h2 _ _ _ ?_)) (h2 _ _ _ ?_)
  all_goals exact ite_tables (taskEnd_tables.trans h1) h1

/-! ### Closing -/

theorem closeReply_tables {x : CapEntry} {teardown : Bool} : (s.closeReply c x teardown).tables = s.tables := by
  unfold closeReply
  rcases s.capReplyCaller x with _ | caller
  · dsimp only
    split_ifs
    · rfl
    · exact recompute_tables
  · have hu := replyDonorUnpark_tables (s := s) (c := c) (t := caller)
    rcases hres : s.replyDonorUnpark c caller with ⟨s₁, _ | _⟩
    · rw [hres] at hu
      simp only [hres]
      split_ifs
      · exact hu
      · exact recompute_tables.trans hu
    · rw [hres] at hu
      simp only [hres]
      split_ifs
      · exact wake_tables.trans ((onThr_tables rfl).trans hu)
      · exact wake_tables.trans (recompute_tables.trans ((onThr_tables rfl).trans hu))

theorem dropServer_tables {teardown : Bool} : (s.dropServer c e teardown).tables = s.tables := by
  unfold dropServer
  dsimp only
  split_ifs
  · exact endpointServerClear_tables
  · exact reschedule_tables.trans (recompute_tables.trans endpointServerClear_tables)
  · exact endpointServerClear_tables
  · rfl

/-! ### Messages -/

@[simp] theorem parkQueueless_tables {edge : WaitEdge} : (s.parkQueueless c edge).tables = s.tables := by
  have h1 : (s.onThr c fun x => { x with state := .blocked }).tables = s.tables := onThr_tables rfl
  have h2 : ∀ k : Kernel, (k.rqRemove c).tables = k.tables := fun _ => rfl
  unfold parkQueueless
  exact (onThr_tables rfl).trans ((h2 _).trans h1)

@[simp] theorem wqBlock_tables {q : Queue} {edge : WaitEdge} {d : Option Nat} :
    ((s.deadlineArm c d).wqBlock c q edge).tables = s.tables :=
  reschedule_tables.trans (onQueue_tables.trans ((onThr_tables rfl).trans
    (parkQueueless_tables.trans (tables_of_core deadlineArm_core))))

theorem onThr_tables_congr {f g : Thread → Thread} (h : (f (s.thr t)).tables = (g (s.thr t)).tables) :
    (s.onThr t f).tables = (s.onThr t g).tables := by
  have h1 : (fun u => (Function.update s.thr t (f (s.thr t)) u).tables) =
      fun u => (Function.update s.thr t (g (s.thr t)) u).tables := by
    funext u
    by_cases hu : u = t
    · subst hu; simpa using h
    · simp [hu]
  simp only [tables, onThr, setThr, h1]

@[simp] theorem replyDonorPark_tables : (s.replyDonorPark c t).tables = s.tables := by
  unfold replyDonorPark
  exact (onThr_tables rfl).trans (onThr_tables rfl)

@[simp] theorem replyWaitSeat_tables {buf len : Nat} : (s.replyWaitSeat t buf len).tables = s.tables := onThr_tables rfl

theorem epCopy_tables {acc : Access} {dst src len : Nat} (h : s.epCopy acc dst src len = some s') : s'.tables = s.tables := by
  unfold epCopy at h
  split_ifs at h
  cases h
  rfl

theorem writeRecvInfo_tables {acc : Access} {out b rc : Nat} (h : s.writeRecvInfo acc out b rc = some s') :
    s'.tables = s.tables := by
  unfold writeRecvInfo at h
  split_ifs at h
  · cases h
    rfl
  · cases h
    rfl

theorem getD_recvInfo_tables {acc : Access} {out b rc : Nat} :
    ((s.writeRecvInfo acc out b rc).getD s).tables = s.tables := by
  rcases h : s.writeRecvInfo acc out b rc with _ | s₁
  · rfl
  · exact writeRecvInfo_tables h

@[simp] theorem wakeOffer_tables {top : Option Tid} : (s.wakeOffer top t).1.tables = s.tables := wakeNoResched_tables

@[simp] theorem callerRefuse_tables {answer : Errno} {top : Option Tid} :
    (s.callerRefuse c t answer top).1.tables = s.tables :=
  wakeOffer_tables.trans (recompute_tables.trans (onThr_tables rfl))

@[simp] theorem wakeTop_tables {top : Option Tid} : (s.wakeTop top).tables = s.tables := by
  cases top with
  | none => rfl
  | some t => exact reschedAfterWake_tables

@[simp] theorem endpointReceiverWaits_tables : (s.endpointReceiverWaits e c).tables = s.tables := by
  have h : (s.endpointServerSet e c).tables = s.tables := by
    unfold endpointServerSet
    split_ifs
    · rfl
    · exact (onEp_tables rfl rfl).trans ((onThr_tables rfl).trans endpointServerClear_tables)
  exact (onEp_tables rfl rfl).trans h

@[simp] theorem taskNoteReceive_tables {left : Option TaskId} {obj : Nat} :
    (s.taskNoteReceive left obj).1.tables = s.tables := by
  unfold taskNoteReceive
  split
  · rfl
  · dsimp only
    split_ifs
    · rfl
    · split
      · rfl
      · rename_i k _ _ n _
        let x := s.onTask k fun x => { x with ready := true }
        have hr : (x.raiseTake n (2 ^ (x.task k).watchBit)).1.tables = x.tables := raiseTake_tables
        split
        · rename_i s₁ hw
          rw [hw] at hr
          exact hr
        · rename_i s₁ t hw
          rw [hw] at hr
          exact wakeNoResched_tables.trans hr

@[simp] theorem consoleHeldTake_tables {len : Nat} : (s.consoleHeldTake len).tables = s.tables := by
  unfold consoleHeldTake
  split <;> rfl

@[simp] theorem heldServe_tables {acc : Access} {buf capLen out : Nat} :
    (s.heldServe acc buf capLen out).1.tables = s.tables := by
  unfold heldServe
  dsimp only
  split_ifs
  · rfl
  · split
    · rename_i s₁ hw
      exact consoleHeldTake_tables.trans ((writeRecvInfo_tables hw).trans rfl)
    · exact consoleHeldTake_tables
  · exact consoleHeldTake_tables

end Kernel
end KickOS
