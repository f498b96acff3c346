import KickOS.Kernel.Placed
import KickOS.Kernel.Ipc

/-! What a message shows of the capability it was sent through: the badge, in the metadata of a receiver that waits, or
with the parked message until a receiver takes it. -/

namespace KickOS
namespace Kernel

variable {s s' : Kernel} {c t w : Tid} {e : Eid} {acc : Access} {out b rc n : Nat}

/-- The metadata at `out` shows badge `b`. -/
def Reads (s : Kernel) (out b : Nat) : Prop := ∀ i < 4, s.mem (out + i) = byteOf b i

theorem mem_of_core (h : s'.core = s.core) : s'.mem = s.mem := core_read Kernel.mem h fun _ => rfl

theorem ipc_of_core (h : s'.core = s.core) (t : Tid) : (s'.thr t).ipc = (s.thr t).ipc :=
  core_read (fun k => (k.thr t).ipc) h fun _ => rfl

theorem Reads.of_mem (h : s.Reads out b) (hm : s'.mem = s.mem) : s'.Reads out b := by
  intro i hi
  rw [hm]
  exact h i hi

theorem reads_writeRecvInfo (ho : out ≠ 0) (h : s.writeRecvInfo acc out b rc = some s') : s'.Reads out b := by
  unfold writeRecvInfo at h
  rw [if_neg ho] at h
  split_ifs at h
  cases h
  intro i hi
  show s.infoBytes out b rc (out + i) = byteOf b i
  rw [infoBytes, if_pos (by omega)]
  congr 1
  omega

theorem writeRecvInfo_frame (h : s.writeRecvInfo acc out b rc = some s') :
    s'.ep = s.ep ∧ ∀ a, a < out ∨ out + 8 ≤ a → s'.mem a = s.mem a := by
  unfold writeRecvInfo at h
  split_ifs at h
  · cases h
    exact ⟨rfl, fun _ _ => rfl⟩
  · cases h
    refine ⟨rfl, fun a ha => ?_⟩
    show s.infoBytes out b rc a = s.mem a
    rw [infoBytes, if_neg (by omega), if_neg (by omega)]

theorem writeRecvInfo_some (s : Kernel) (b rc : Nat) (ha : acc.store out 8 = true) :
    ∃ s', s.writeRecvInfo acc out b rc = some s' := by
  unfold writeRecvInfo
  split_ifs
  · exact ⟨_, rfl⟩
  · exact ⟨_, rfl⟩

/-- A message leaves badge `b`: with the message where it waits, else with the receiver that waited. -/
structure Shown (s : Kernel) (acc : Access) (e : Eid) (c : Tid) (b : Nat) (r : Kernel × Attempt) : Prop where
  parked : s.wqPeekHighest (s.ep e).recvWaiters = none → r.2 = .parked → (r.1.thr c).ipc.badge = b
  handed : ∀ w, s.wqPeekHighest (s.ep e).recvWaiters = some w → (s.thr w).ipc.badgeOut ≠ 0 →
    acc.store (s.thr w).ipc.badgeOut 8 = true → (r.2 = .parked ∨ ∃ n, r.2 = .answered (.ok n)) →
      r.1.Reads (s.thr w).ipc.badgeOut b

theorem Shown.refused {err : Errno} : Shown s acc e c b (s', .answered (.error err)) := by
  refine ⟨fun _ h => absurd h (by simp), fun w _ _ _ h => ?_⟩
  rcases h with h | ⟨n, h⟩
  · exact absurd h (by simp)
  · exact absurd h (by simp)

theorem wqPop_recv (h : s.wqPeekHighest (s.ep e).recvWaiters = some w) :
    s.wqPopHighest (.recv e) = (((s.onQueue (.recv e) fun l => l.erase w).clearWaitEdge w), some w) := by
  unfold wqPopHighest
  simp only [queueOf, h]

theorem wqPop_recv_none (h : s.wqPeekHighest (s.ep e).recvWaiters = none) : s.wqPopHighest (.recv e) = (s, none) := by
  unfold wqPopHighest
  simp only [queueOf, h]

theorem wqPop_read {α : Type} (g : Thread → α) (hg : ∀ x : Thread, g { x with queue := none, edge := .none } = g x)
    {q : Queue} (t : Tid) : g ((s.wqPopHighest q).1.thr t) = g (s.thr t) := by
  unfold wqPopHighest
  split
  · rfl
  · rename_i u _
    by_cases hu : t = u
    · subst hu; simp [clearWaitEdge, onThr, setThr, hg]
    · simp [clearWaitEdge, onThr, setThr, hu]

theorem wqPop_ipc {q : Queue} (t : Tid) : ((s.wqPopHighest q).1.thr t).ipc = (s.thr t).ipc :=
  wqPop_read Thread.ipc (fun _ => rfl) t

theorem wqBlock_ipc {q : Queue} {edge : WaitEdge} {d : Option Nat} :
    (((s.deadlineArm c d).wqBlock c q edge).thr c).ipc = (s.thr c).ipc := by
  have hcore : ((s.deadlineArm c d).wqBlock c q edge).core = _ := wqBlock_core
  have h1 := core_read (fun k => (k.thr c).ipc) hcore fun _ => rfl
  have hq : ∀ (k : Kernel) f, (k.onQueue q f).thr = k.thr := fun k f => by cases q <;> rfl
  have h2 := ipc_of_core (deadlineArm_core (s := s) (t := c) (d := d)) c
  refine h1.trans ?_
  simp only [hq]
  simpa [onThr, setThr] using h2

theorem epCopy_thr {dst src : Nat} (h : s.epCopy acc dst src n = some s') : s'.thr = s.thr ∧ s'.ep = s.ep := by
  unfold epCopy at h
  split_ifs at h
  cases h
  exact ⟨rfl, rfl⟩

theorem shown_endpointSend {cap buf len : Nat} {readable noWait : Bool} {d : Option Nat}
    (h : s.capResolve c cap .endpoint { signal := true } = .ok e) :
    Shown s acc e c (s.senderBadge c cap) (s.endpointSend acc c cap buf len readable noWait d) := by
  unfold endpointSend
  by_cases h1 : epMsgMax < len
  · rw [if_pos h1]
    exact .refused
  rw [if_neg h1]
  by_cases h2 : readable = false
  · rw [if_pos h2]
    exact .refused
  rw [if_neg h2, h]
  dsimp only
  by_cases h3 : s.takesSends e = false
  · rw [if_pos h3]
    exact .refused
  rw [if_neg h3]
  rcases hpeek : s.wqPeekHighest (s.ep e).recvWaiters with _ | w
  · rw [wqPop_recv_none hpeek]
    dsimp only
    by_cases h4 : noWait = true
    · rw [if_pos h4]
      exact .refused
    rw [if_neg h4]
    refine ⟨fun _ _ => ?_, fun w hw => ?_⟩
    · refine (congrArg Ipc.badge wqBlock_ipc).trans ?_
      simp [onThr, setThr]
    · rw [hpeek] at hw
      exact absurd hw (by simp)
  · have hipc := wqPop_ipc (s := s) (q := .recv e) w
    rcases hpop : s.wqPopHighest (.recv e) with ⟨s₁, o⟩
    rw [hpop] at hipc
    have ho : o = some w := by
      rw [wqPop_recv hpeek] at hpop
      exact (Prod.mk.inj hpop).2.symm
    subst ho
    dsimp only at hipc ⊢
    rw [hipc]
    rcases hcopy : s₁.epCopy acc (s.thr w).ipc.buf buf (min len (s.thr w).ipc.len) with _ | s₂
    · exact .refused
    obtain ⟨hthr, -⟩ := epCopy_thr hcopy
    dsimp only
    rw [hthr, hipc]
    refine ⟨fun hno => ?_, fun u hu ho ha _ => ?_⟩
    · rw [hpeek] at hno
      exact absurd hno (by simp)
    · obtain rfl := Option.some.inj (hpeek.symm.trans hu)
      obtain ⟨s₃, hs₃⟩ := writeRecvInfo_some s₂ (s.senderBadge c cap) kcapInvalid ha
      dsimp only
      rw [hs₃]
      refine (reads_writeRecvInfo ho hs₃).of_mem ?_
      exact (mem_of_core wake_core).trans rfl

/-! ### Calls -/

@[simp] theorem replyDonorPark_mem : (s.replyDonorPark w c).mem = s.mem := rfl

@[simp] theorem parkQueueless_mem {edge : WaitEdge} : (s.parkQueueless c edge).mem = s.mem := rfl

theorem reads_mintFor (ho : out ≠ 0) (h : s.mintFor acc w c out b = (s', true)) : s'.Reads out b := by
  unfold mintFor at h
  rcases hm : s.installReply w c with ⟨s₁, minted⟩
  rw [hm] at h
  dsimp only at h
  split at h
  · rename_i s₂ hw
    obtain ⟨rfl, -⟩ := Prod.mk.inj h
    exact reads_writeRecvInfo ho hw
  · rename_i hw
    rcases hu : (s₁.assert minted.isOk).uninstallReply w _ c with ⟨s₂, undone⟩
    rw [hu] at h
    exact absurd (Prod.mk.inj h).2 (by simp)

theorem shown_callReceiver {buf sendLen recvCap : Nat} {d : Option Nat}
    (hpeek : s.wqPeekHighest (s.ep e).recvWaiters = some w) :
    Shown s acc e c b (s.callReceiver acc c w e b buf sendLen recvCap d) := by
  have hipc := wqPop_ipc (s := s) (q := .recv e) w
  unfold callReceiver
  rcases hpop : s.wqPopHighest (.recv e) with ⟨s₁, o⟩
  rw [hpop] at hipc
  dsimp only at hipc ⊢
  rw [hipc]
  rcases hcopy : s₁.epCopy acc (s.thr w).ipc.buf buf (min sendLen (s.thr w).ipc.len) with _ | s₂
  · exact .refused
  obtain ⟨hthr, -⟩ := epCopy_thr hcopy
  dsimp only
  set s₃ := s₂.onThr c fun x => { x with callSeq := (x.callSeq + 1) % 2 ^ 16 } with hs₃
  have hout : (s₃.thr w).ipc = (s.thr w).ipc := by
    by_cases hw : w = c
    · subst hw; simp [hs₃, onThr, setThr, hthr, hipc]
    · simp [hs₃, onThr, setThr, hw, hthr, hipc]
  rw [hout]
  rcases hmint : s₃.mintFor acc w c (s.thr w).ipc.badgeOut b with ⟨s₄, _ | _⟩
  · exact .refused
  refine ⟨fun hno => ?_, fun u hu ho _ _ => ?_⟩
  · rw [hpeek] at hno
    exact absurd hno (by simp)
  · obtain rfl := Option.some.inj (hpeek.symm.trans hu)
    refine (reads_mintFor ho hmint).of_mem ?_
    dsimp only
    rw [mem_of_core wake_core, mem_of_core deadlineArm_core]
    simp only [replyDonorPark_mem, parkQueueless_mem]
    split_ifs
    · show (setPrio _ _ _).mem = _
      rw [mem_of_core setPrio_core]
      rfl
    · rfl

theorem callPark_badge {buf sendLen recvCap : Nat} {d : Option Nat} :
    ((s.callPark c e b buf sendLen recvCap d).thr c).ipc.badge = b := by
  unfold callPark
  dsimp only
  refine (congrArg Ipc.badge wqBlock_ipc).trans ?_
  split
  · simp [onThr, setThr]
  · split_ifs
    · rw [ipc_of_core setPrio_core]
      simp [onThr, setThr]
    · simp [onThr, setThr]

theorem shown_endpointCall {cap buf sendLen recvCap : Nat} {valid : Bool} {d : Option Nat}
    (h : s.capResolve c cap .endpoint { signal := true } = .ok e) :
    Shown s acc e c (s.senderBadge c cap) (s.endpointCall acc c cap buf sendLen recvCap valid d) := by
  unfold endpointCall
  by_cases h1 : epMsgMax < sendLen
  · rw [if_pos h1]
    exact .refused
  rw [if_neg h1]
  by_cases h2 : valid = false
  · rw [if_pos h2]
    exact .refused
  rw [if_neg h2, h]
  dsimp only
  by_cases h3 : s.takesSends e = false
  · rw [if_pos h3]
    exact .refused
  rw [if_neg h3]
  rcases hpeek : s.wqPeekHighest (s.ep e).recvWaiters with _ | w
  · refine ⟨fun _ _ => callPark_badge, fun w hw => ?_⟩
    rw [hpeek] at hw
    exact absurd hw (by simp)
  · dsimp only
    split_ifs
    · exact .refused
    · exact .refused
    · exact .refused
    · exact shown_callReceiver hpeek

theorem reads_mintFor_flat (ho : out ≠ 0) : (s.mintFor Access.flat w c out b).1.Reads out b := by
  have hstore : (s.mintFor Access.flat w c out b).2 = true := by
    unfold mintFor
    rcases s.installReply w c with ⟨s₁, minted⟩
    dsimp only
    split
    · rfl
    · rename_i hw
      have hflat : Access.flat.store out 8 = true := rfl
      obtain ⟨s₂, hs₂⟩ := writeRecvInfo_some (s₁.assert minted.isOk) b _ hflat
      exact absurd (hw.symm.trans hs₂) (by simp)
  exact reads_mintFor ho (Prod.ext rfl hstore)

theorem reads_ipcFastpath {frame cap sendLen recvCap : Nat} (hc : s.current = some c)
    (h : s.capResolve c cap .endpoint { signal := true } = .ok e) (hf : s.ipcFastpath frame cap sendLen recvCap = some s') :
    ∃ w, s.wqPeekHighest (s.ep e).recvWaiters = some w ∧ s'.Reads (s.thr w).ipc.badgeOut (s.senderBadge c cap) := by
  unfold ipcFastpath at hf
  rw [hc] at hf
  dsimp only at hf
  split_ifs at hf
  rw [h] at hf
  dsimp only at hf
  rcases hpeek : s.wqPeekHighest (s.ep e).recvWaiters with _ | w
  · rw [hpeek] at hf
    exact absurd hf (by simp)
  rw [hpeek] at hf
  dsimp only at hf
  split_ifs at hf with h1 h2 h3
  rcases hcopy : s.epCopy Access.flat (s.thr w).ipc.buf (frame + 12) (min sendLen (s.thr w).ipc.len) with _ | s₁
  · rw [hcopy] at hf
    exact absurd hf (by simp)
  rw [hcopy] at hf
  obtain ⟨hthr, -⟩ := epCopy_thr hcopy
  refine ⟨w, rfl, ?_⟩
  dsimp only at hf
  set s₂ := (s₁.wqPopHighest (.recv e)).1.onThr c fun x => { x with callSeq := (x.callSeq + 1) % 2 ^ 16 } with hs₂
  have hout : (s₂.thr w).ipc = (s.thr w).ipc := by
    rw [← hthr, ← wqPop_ipc (s := s₁) (q := .recv e) w]
    by_cases hw : w = c
    · subst hw; simp [hs₂, onThr, setThr]
    · simp [hs₂, onThr, setThr, hw]
  have hbadge : s₂.senderBadge c cap = s.senderBadge c cap := by
    unfold senderBadge
    rw [← hthr, ← wqPop_read (s := s₁) Thread.caps (fun _ => rfl) (q := .recv e) c]
    simp [hs₂, onThr, setThr]
  rw [hout, hbadge] at hf
  have hreads := reads_mintFor_flat (s := s₂) (w := w) (c := c) (b := s.senderBadge c cap) (fun h0 => h1 (.inl h0))
  set s₃ := (s₂.mintFor Access.flat w c (s.thr w).ipc.badgeOut (s.senderBadge c cap)).1 with hs₃
  cases hf
  refine hreads.of_mem ?_
  rw [mem_of_core switchBook_core]
  show (wakeNoResched _ w).1.mem = _
  rw [mem_of_core wakeNoResched_core]
  rfl

/-! ### Receives -/

/-- What is still parked on `e` is as it was. -/
structure Remains (e : Eid) (s s' : Kernel) : Prop where
  sends : (s'.ep e).sendWaiters.Sublist (s.ep e).sendWaiters
  console : (s'.ep e).console = (s.ep e).console
  ipc : ∀ t, (s'.thr t).ipc = (s.thr t).ipc
  mem : s'.mem = s.mem

theorem Remains.refl (s : Kernel) : Remains e s s := ⟨.refl _, rfl, fun _ => rfl, rfl⟩

theorem Remains.trans {s'' : Kernel} (h : Remains e s s') (h' : Remains e s' s'') : Remains e s s'' where
  sends := h'.sends.trans h.sends
  console := h'.console.trans h.console
  ipc t := (h'.ipc t).trans (h.ipc t)
  mem := h'.mem.trans h.mem

theorem ep_of_core (h : s'.core = s.core) : s'.ep = s.ep := core_read Kernel.ep h fun _ => rfl

theorem Remains.of_core (h : s'.core = s.core) : Remains e s s' := by
  refine ⟨?_, by rw [ep_of_core h], ipc_of_core h, mem_of_core h⟩
  rw [ep_of_core h]

theorem Remains.onThr {f : Thread → Thread} (h : (f (s.thr t)).ipc = (s.thr t).ipc) : Remains e s (s.onThr t f) :=
  ⟨.refl _, rfl, fun _ => field_onThr Thread.ipc h _, rfl⟩

theorem Remains.onEp {i : Eid} {f : Endpoint → Endpoint} (hs : (f (s.ep i)).sendWaiters = (s.ep i).sendWaiters)
    (hc : (f (s.ep i)).console = (s.ep i).console) : Remains e s (s.onEp i f) := by
  by_cases hi : e = i
  · subst hi
    exact ⟨by simp [Kernel.onEp, hs], by simp [Kernel.onEp, hc], fun _ => rfl, rfl⟩
  · exact ⟨by simp [Kernel.onEp, hi], by simp [Kernel.onEp, hi], fun _ => rfl, rfl⟩

theorem Remains.erase {q : Queue} : Remains e s (s.onQueue q fun l => l.erase t) := by
  cases q with
  | send i =>
    by_cases hi : e = i
    · subst hi
      refine ⟨?_, by simp [onQueue, Kernel.onEp], fun _ => rfl, rfl⟩
      simpa [onQueue, Kernel.onEp] using List.erase_sublist
    · exact ⟨by simp [onQueue, Kernel.onEp, hi], by simp [onQueue, Kernel.onEp, hi], fun _ => rfl, rfl⟩
  | recv i => exact .onEp (f := fun x => { x with recvWaiters := x.recvWaiters.erase t }) rfl rfl
  | record m => exact ⟨.refl _, rfl, fun _ => rfl, rfl⟩

theorem Remains.assert {ok : Bool} : Remains e s (s.assert ok) := ⟨.refl _, rfl, fun _ => rfl, rfl⟩

theorem Remains.clearWaitEdge : Remains e s (s.clearWaitEdge t) := .onThr rfl

theorem Remains.unlinkQueue : Remains e s (s.unlinkQueue t) := by
  unfold Kernel.unlinkQueue
  split
  · exact .assert
  · exact Remains.assert.trans .erase

theorem Remains.wqPop {q : Queue} : Remains e s (s.wqPopHighest q).1 := by
  unfold wqPopHighest
  split
  · exact .refl s
  · exact Remains.erase.trans .clearWaitEdge

theorem Remains.callerRefuse {answer : Errno} {top : Option Tid} : Remains e s (s.callerRefuse c t answer top).1 := by
  refine (Remains.onThr (f := fun x => { x with callState := .none, waitResult := .error answer }) (t := t) rfl).trans
    (.of_core ?_)
  show (wakeNoResched _ t).1.core = _
  rw [wakeNoResched_core, recompute_core]

theorem Remains.endpointReceiverWaits {i : Eid} : Remains e s (s.endpointReceiverWaits i c) := by
  have hclear : Remains e s (s.endpointServerClear i) := by
    unfold endpointServerClear
    split
    · exact .refl s
    · split_ifs
      · exact (Remains.onThr rfl).trans (.onEp rfl rfl)
      · exact .assert
  have hset : Remains e s (s.endpointServerSet i c) := by
    unfold endpointServerSet
    split_ifs
    · exact .refl s
    · exact hclear.trans ((Remains.onThr rfl).trans (.onEp rfl rfl))
  exact hset.trans (.onEp rfl rfl)

theorem Remains.raiseTake {i : Nid} {bit : Nat} : Remains e s (s.raiseTake i bit).1 := by
  have hnote : Remains e s (s.onNote i fun x => { x with pending := x.pending ||| bit }) := ⟨.refl _, rfl, fun _ => rfl, rfl⟩
  unfold Kernel.raiseTake
  dsimp only
  split
  · exact hnote
  · split_ifs
    · exact hnote
    · exact hnote.trans .clearWaitEdge
    · split
      · exact hnote.trans (Remains.unlinkQueue.trans (Remains.clearWaitEdge.trans
          (.onThr (f := fun x => { x with waitResult := .error .enotify }) rfl)))
      · exact hnote
    · split <;> exact hnote

theorem Remains.taskNoteReceive {k : Option TaskId} {obj : Nat} : Remains e s (s.taskNoteReceive k obj).1 := by
  unfold Kernel.taskNoteReceive
  split
  · exact .refl s
  · rename_i k
    have htask : Remains e s (s.onTask k fun x => { x with ready := true }) := ⟨.refl _, rfl, fun _ => rfl, rfl⟩
    dsimp only
    split_ifs
    · exact .refl s
    · split
      · exact htask
      · rename_i i _
        let x := s.onTask k fun x => { x with ready := true }
        have hr : Remains e s (x.raiseTake i (2 ^ (x.task k).watchBit)).1 := htask.trans .raiseTake
        split
        · rename_i hw
          rw [hw] at hr
          exact hr
        · rename_i hw
          rw [hw] at hr
          exact hr.trans (.of_core wakeNoResched_core)

/-- The receive took the message `t` had parked on `e`: `t` has left the queue with an answer, its bytes are in the
buffer and its badge in the metadata. -/
structure Takes (s s' : Kernel) (e : Eid) (t : Tid) (buf capLen out n : Nat) : Prop where
  parked : t ∈ (s.ep e).sendWaiters
  left : (s'.ep e).sendWaiters.count t < (s.ep e).sendWaiters.count t
  answered : (s'.thr t).waitResult = .ok n ∨ (s'.thr t).callState = .replyWait
  length : n = min (s.thr t).ipc.len capLen
  copied : ∀ j < n, buf + j < out ∨ out + 8 ≤ buf + j → s'.mem (buf + j) = s.mem ((s.thr t).ipc.buf + j)
  shown : s'.Reads out (s.thr t).ipc.badge

theorem Takes.of_remains {s₁ : Kernel} {buf capLen : Nat} (h : Takes s₁ s' e t buf capLen out n) (hr : Remains e s s₁) :
    Takes s s' e t buf capLen out n where
  parked := hr.sends.subset h.parked
  left := Nat.lt_of_lt_of_le h.left (hr.sends.count_le t)
  answered := h.answered
  length := hr.ipc t ▸ h.length
  copied j hj hout := by rw [h.copied j hj hout, hr.mem, hr.ipc]
  shown := hr.ipc t ▸ h.shown

theorem Takes.of_core {s₁ : Kernel} {buf capLen : Nat} (h : Takes s s₁ e t buf capLen out n) (hc : s'.core = s₁.core) :
    Takes s s' e t buf capLen out n where
  parked := h.parked
  left := by rw [ep_of_core hc]; exact h.left
  answered := by
    rw [core_read (fun k => (k.thr t).waitResult) hc fun _ => rfl, core_read (fun k => (k.thr t).callState) hc fun _ => rfl]
    exact h.answered
  length := h.length
  copied j hj hout := by rw [mem_of_core hc]; exact h.copied j hj hout
  shown := h.shown.of_mem (mem_of_core hc)

theorem epCopy_mem {dst src j : Nat} (h : s.epCopy acc dst src n = some s') (hj : j < n) :
    s'.mem (dst + j) = s.mem (src + j) := by
  unfold epCopy at h
  split_ifs at h
  cases h
  show (if dst ≤ dst + j ∧ dst + j < dst + n then s.mem (src + (dst + j - dst)) else _) = _
  rw [if_pos (by omega), Nat.add_sub_cancel_left]

theorem mintFor_frame (h : s.mintFor acc w c out b = (s', true)) :
    s'.ep = s.ep ∧ ∀ a, a < out ∨ out + 8 ≤ a → s'.mem a = s.mem a := by
  unfold mintFor at h
  rcases hm : s.installReply w c with ⟨s₁, minted⟩
  have h1 : s₁.ep = s.ep ∧ s₁.mem = s.mem := by
    unfold installReply at hm
    obtain ⟨rfl, -⟩ := Prod.mk.inj hm
    exact ⟨rfl, rfl⟩
  rw [hm] at h
  dsimp only at h
  split at h
  · rename_i s₂ hw
    obtain ⟨rfl, -⟩ := Prod.mk.inj h
    obtain ⟨h2, h3⟩ := writeRecvInfo_frame hw
    exact ⟨h2.trans h1.1, fun a ha => (h3 a ha).trans (congrFun h1.2 a)⟩
  · rcases hu : (s₁.assert minted.isOk).uninstallReply w _ c with ⟨s₂, undone⟩
    rw [hu] at h
    exact absurd (Prod.mk.inj h).2 (by simp)

theorem wqPop_send (h : s.wqPopHighest (.send e) = (s', some t)) :
    t ∈ (s.ep e).sendWaiters ∧ (s'.ep e).sendWaiters = (s.ep e).sendWaiters.erase t := by
  unfold wqPopHighest at h
  split at h
  · exact absurd (Prod.mk.inj h).2 (by simp)
  · rename_i best hbest
    obtain ⟨rfl, hs⟩ := Prod.mk.inj h
    cases hs
    exact ⟨wqPeekHighest_mem hbest, by simp [clearWaitEdge, onThr, setThr, onQueue, onEp]⟩

theorem wqPop_count (h : s.wqPopHighest (.send e) = (s', some t)) :
    (s'.ep e).sendWaiters.count t < (s.ep e).sendWaiters.count t := by
  obtain ⟨hm, he⟩ := wqPop_send h
  have hpos := List.count_pos_iff.mpr hm
  rw [he, List.count_erase_self]
  omega

theorem takes_call {s₁ s₂ : Kernel} {buf capLen : Nat} (ho : out ≠ 0) (hpop : s.wqPopHighest (.send e) = (s₁, some t))
    (htc : s₁.takeCall acc c t buf capLen out = (s₂, true)) (hs' : s'.mem = s₂.mem) (hep : s'.ep = s₂.ep)
    (hw : (s'.thr t).callState = .replyWait) :
    Takes s s' e t buf capLen out (min (s₁.thr t).ipc.len capLen) := by
  have hr : Remains e s s₁ := by simpa [hpop] using Remains.wqPop (e := e) (s := s) (q := .send e)
  unfold takeCall at htc
  rcases hcopy : s₁.epCopy acc buf (s₁.thr t).ipc.buf (min (s₁.thr t).ipc.len capLen) with _ | s₃
  · rw [hcopy] at htc
    exact absurd (Prod.mk.inj htc).2 (by simp)
  rw [hcopy] at htc
  dsimp only at htc
  obtain ⟨h1, h2⟩ := mintFor_frame htc
  obtain ⟨hthr, hep₃⟩ := epCopy_thr hcopy
  refine ⟨(wqPop_send hpop).1, ?_, .inr hw, by rw [hr.ipc], fun j hj hout => ?_, ?_⟩
  · rw [hep, h1, hep₃]
    exact wqPop_count hpop
  · rw [hs', h2 _ hout, epCopy_mem hcopy hj, hr.mem, hr.ipc]
  · rw [hthr, hr.ipc] at htc
    exact (reads_mintFor ho htc).of_mem hs'

theorem takes_send {s₁ s₂ s₃ : Kernel} {buf capLen : Nat} (ho : out ≠ 0) (hpop : s.wqPopHighest (.send e) = (s₁, some t))
    (hcopy : s₁.epCopy acc buf (s₁.thr t).ipc.buf (min (s₁.thr t).ipc.len capLen) = some s₂)
    (hinfo : s₂.writeRecvInfo acc out (s₂.thr t).ipc.badge rc = some s₃) :
    Takes s (s₃.onThr t fun x => { x with waitResult := .ok (min (s₁.thr t).ipc.len capLen) }) e t buf capLen out
      (min (s₁.thr t).ipc.len capLen) := by
  have hr : Remains e s s₁ := by simpa [hpop] using Remains.wqPop (e := e) (s := s) (q := .send e)
  obtain ⟨hthr, hep⟩ := epCopy_thr hcopy
  obtain ⟨h1, h2⟩ := writeRecvInfo_frame hinfo
  refine ⟨(wqPop_send hpop).1, ?_, .inl (by simp [onThr, setThr]), by rw [hr.ipc], fun j hj hout => ?_, ?_⟩
  · show (s₃.ep e).sendWaiters.count t < _
    rw [h1, hep]
    exact wqPop_count hpop
  · show s₃.mem (buf + j) = _
    rw [h2 _ hout, epCopy_mem hcopy hj, hr.mem, hr.ipc]
  · rw [hthr, hr.ipc] at hinfo
    exact (reads_writeRecvInfo ho hinfo).of_mem rfl

theorem takes_recvScan {buf capLen fuel : Nat} {top top' : Option Tid} (ho : out ≠ 0) (ha : acc.store out 8 = true)
    (h : recvScan acc c e buf capLen out fuel s top = (s', top', some (.ok n))) : ∃ t, Takes s s' e t buf capLen out n := by
  induction fuel generalizing s top with
  | zero => exact absurd (Prod.mk.inj (Prod.mk.inj h).2).2 (by simp)
  | succ fuel ih =>
    unfold recvScan at h
    rcases hpop : s.wqPopHighest (.send e) with ⟨s₁, _ | t⟩
    · rw [hpop] at h
      exact absurd (Prod.mk.inj (Prod.mk.inj h).2).2 (by simp)
    have hr : Remains e s s₁ := by simpa [hpop] using Remains.wqPop (e := e) (s := s) (q := .send e)
    rw [hpop] at h
    dsimp only at h
    -- a caller the receiver cannot answer is refused, and the scan goes on
    have hnext : ∀ answer, recvScan acc c e buf capLen out fuel (s₁.callerRefuse c t answer top).1
        (s₁.callerRefuse c t answer top).2 = (s', top', some (.ok n)) → ∃ t, Takes s s' e t buf capLen out n := by
      intro answer hrest
      obtain ⟨u, hu⟩ := ih hrest
      exact ⟨u, hu.of_remains (hr.trans .callerRefuse)⟩
    by_cases hcall : (s₁.thr t).callState = .sendWait
    · rw [if_pos hcall, if_neg ho] at h
      by_cases htake : capCanTakeReply (s₁.thr c).caps = false
      · rw [if_pos htake] at h
        exact hnext _ h
      rw [if_neg htake] at h
      rcases htc : s₁.takeCall acc c t buf capLen out with ⟨s₂, _ | _⟩
      · rw [htc] at h
        exact absurd (Prod.mk.inj (Prod.mk.inj h).2).2 (by simp)
      rw [htc] at h
      dsimp only at h
      set s₃ := (s₂.replyWaitSeat t (s₂.thr t).ipc.buf (s₂.thr t).callRxCap).replyDonorPark c t with hs₃
      have hwait : (s₃.thr t).callState = .replyWait := by
        by_cases hc : t = c
        · subst hc; simp [hs₃, replyDonorPark, replyWaitSeat, onThr, setThr]
        · simp [hs₃, replyDonorPark, replyWaitSeat, onThr, setThr, hc]
      obtain ⟨rfl, hn⟩ := Prod.mk.inj h
      obtain rfl := Except.ok.inj (Option.some.inj (Prod.mk.inj hn).2)
      have htakes : Takes s s₃ e t buf capLen out (min (s₁.thr t).ipc.len capLen) := takes_call ho hpop htc rfl rfl hwait
      refine ⟨t, htakes.of_core ?_⟩
      split_ifs
      · exact setPrio_core
      · rfl
    · rw [if_neg hcall] at h
      rcases hcopy : s₁.epCopy acc buf (s₁.thr t).ipc.buf (min (s₁.thr t).ipc.len capLen) with _ | s₂
      · rw [hcopy] at h
        exact absurd (Prod.mk.inj (Prod.mk.inj h).2).2 (by simp)
      rw [hcopy] at h
      obtain ⟨s₃, hs₃⟩ := writeRecvInfo_some s₂ (s₂.thr t).ipc.badge kcapInvalid ha
      dsimp only at h
      rw [hs₃] at h
      obtain ⟨rfl, hn⟩ := Prod.mk.inj h
      obtain rfl := Except.ok.inj (Option.some.inj (Prod.mk.inj hn).2)
      exact ⟨t, (takes_send ho hpop hcopy hs₃).of_core wakeNoResched_core⟩

/-- The receive of an endpoint the kernel holds nothing for takes a parked message where it answers at once. -/
theorem takes_endpointRecv {cap buf capLen : Nat} {d : Option Nat} (ho : out ≠ 0) (ha : acc.store out 8 = true)
    (hres : s.capResolve c cap .endpoint { wait := true } = .ok e) (hcon : (s.ep e).console ≠ .served)
    (h : s.endpointRecv acc c cap buf capLen out d = (s', .answered (.ok n))) : ∃ t, Takes s s' e t buf capLen out n := by
  unfold endpointRecv at h
  rw [hres] at h
  dsimp only at h
  have hr : ∀ k obj, Remains e s ((s.endpointReceiverWaits e c).taskNoteReceive k obj).1 := fun _ _ =>
    Remains.endpointReceiverWaits.trans .taskNoteReceive
  unfold recvFrom at h
  rw [if_neg (by rw [(hr _ _).console]; exact hcon)] at h
  dsimp only at h
  split at h
  · rename_i s₁ top' rc hscan
    obtain ⟨rfl, hrc⟩ := Prod.mk.inj h
    obtain rfl := Attempt.answered.inj hrc
    obtain ⟨t, ht⟩ := takes_recvScan ho ha hscan
    refine ⟨t, (ht.of_remains (hr _ _)).of_core ?_⟩
    cases top' with
    | none => rfl
    | some u => exact reschedAfterWake_core
  · exact absurd (Prod.mk.inj h).2 (by simp)

end Kernel
end KickOS
