import OpenV.Sync.Calls

/- The order in which the kernel nests its locks, function by function.
   `Keeps n c`: `c` takes locks of rank `n` and above, in order. `Wakes n c`: it
   does so but for the table lock, which it takes only to put a process on the
   run queue. Dropping objects is of the second kind: under the table lock it is
   harmless as long as nobody is woken. -/
namespace OpenV.Sync
open Hart (Ordered Watched Below alone Same Calm)

abbrev Keeps {α : Type} (n : Nat) (c : Run α) : Prop := Ordered Lock.rank n c

abbrev Wakes {α : Type} (n : Nat) (c : Run α) : Prop := Watched Lock.rank .processTable Sys.runQueue n c

section Basic
variable {n : Nat} {α : Type} {pid : Int}

theorem getProc_keeps : Keeps n (getProc pid) := .bind .read fun _ => .pure _

theorem field_keeps {f : ProcField} {d : α} {g : Proc → α} (hn : Nat.ble n (10 + f.rank) = true) :
    Keeps n (field pid f d g) :=
  .locked hn (.bind .read fun _ => .pure _)

theorem setField_keeps {f : ProcField} {g : Proc → Proc} (hn : Nat.ble n (10 + f.rank) = true) :
    Keeps n (setField pid f g) :=
  .locked hn (.write _)

theorem enqueueWithPrio_keeps {prio : Int} (hn : Nat.ble n 70 = true) : Keeps n (enqueueWithPrio pid prio) :=
  .locked hn (.write _)

theorem enqueue_keeps : Keeps 2 (enqueue pid) :=
  .bind (.locked rfl getProc_keeps) fun _ => enqueueWithPrio_keeps rfl

theorem wakeStopped_keeps {prio : Int} : Keeps 10 (wakeStopped pid prio) := by
  refine .bind (.locked rfl (.bind .read fun _ => .bind (.onlyIf (.write _)) fun _ => .pure _)) fun _ => ?_
  exact .onlyIf (enqueueWithPrio_keeps rfl)

theorem frameOp_keeps : ∀ op, Keeps 67 (frameOp op)
  | .alloc => .bind (.locked rfl (.pure _)) fun _ => .locked rfl (.pure _)
  | .free => .locked rfl (.locked rfl (.pure _))
  | .count => .locked rfl (.pure _)

theorem frameOps_keeps (ops : List FrameOp) : Keeps 67 (frameOps ops) := .forEach frameOp_keeps ops

end Basic

/-! ## Dropping -/

section Drop
variable {n : Nat}

theorem enqueue_alone (pid : Int) (s : Sys) : ∃ prio,
    alone (enqueue pid) s = (.ok (), { s with runQueue := s.runQueue ++ [(prio, pid)] }) :=
  ⟨_, rfl⟩

/-- A wake-up takes the table lock, and says so in the run queue. -/
theorem enqueue_wakes (pid : Int) : Wakes 70 (enqueue pid) where
  calm s := (enqueue_keeps s).1
  grows s := by
    obtain ⟨prio, h⟩ := enqueue_alone pid s
    exact List.prefix_append ..
  free s held hb hm := by
    have h1 : locked .processTable (getProc pid) ⟨held, s⟩ = (.ok (s.proc pid), ⟨held, s⟩) :=
      Hart.locked_run relock hm rfl nofun
    rw [Same, enqueue, Cmd.bind_ok h1]
    exact (enqueueWithPrio_keeps rfl s).2 held hb
  quiet s held _ _ hq := by
    obtain ⟨prio, h⟩ := enqueue_alone pid s
    rw [h] at hq
    exact absurd hq (by simp)
  loud s held _ hm _ := by
    have h1 : locked .processTable (getProc pid) ⟨held, s⟩ = (.panic relock, ⟨held, s⟩) := Hart.locked_held hm
    exact ⟨relock, Cmd.bind_panic (by rw [h1])⟩

theorem wake_wakes (waiter : Int) : Wakes 70 (wake waiter) := .onlyIf (enqueue_wakes waiter)

theorem wakeEpoll_wakes (e : Nat) : Wakes 70 (wakeEpoll e) :=
  .bind .read fun _ => .onlyIf (.bind (.write fun _ => rfl) fun _ => wake_wakes _)

theorem wakePipeWatchers_wakes (i : Nat) : Wakes 55 (wakePipeWatchers i) := by
  refine .locked rfl rfl (.bind .read fun s => .bind (.forEach (fun e => ?_) _) fun _ => .write fun _ => rfl)
  exact (wakeEpoll_wakes e).le rfl

theorem wakeEndpointWatchers_wakes (i : Nat) : Wakes 54 (wakeEndpointWatchers i) := by
  refine .locked rfl rfl (.bind .read fun s => .bind (.forEach (fun e => ?_) _) fun _ => .write fun _ => rfl)
  exact (wakeEpoll_wakes e).le rfl

theorem queuePacket_wakes (port signals : Nat) : Wakes 56 (queuePacket port signals) := by
  refine .bind (.locked rfl rfl (.write fun _ => rfl)) fun _ => .bind .read fun s => ?_
  exact .bind (.write fun _ => rfl) fun _ => (wake_wakes _).le rfl

theorem getSignals_wakes (ep : Nat) : Wakes 51 (getSignals ep) := by
  unfold getSignals
  exact .locked rfl rfl (.bind .read fun _ => .pure _)

theorem notifySignals_wakes (ep active : Nat) : Wakes 52 (notifySignals ep active) := by
  refine .bind (.locked rfl rfl (.bind .read fun s => .forEach (fun w => .onlyIf ?_) _)) fun _ =>
    .locked rfl rfl (.bind .read fun s => .forEach (fun o => .onlyIf ?_) _)
  · exact .bind (.write fun _ => rfl) fun _ => (enqueue_wakes _).le rfl
  · exact (queuePacket_wakes _ _).le rfl

theorem dropPipeWrite_wakes (i : Nat) : Wakes 55 (dropPipeWrite i) := by
  refine .bind .read fun s => .bind (.onlyIf ?_) fun _ => .write fun _ => rfl
  exact .bind (.write fun _ => rfl) fun _ => .bind ((wake_wakes _).le rfl) fun _ => wakePipeWatchers_wakes i

theorem dropEpoll_wakes (i : Nat) : Wakes 70 (dropEpoll i) := by
  refine .bind .read fun s => .bind (.write fun _ => rfl) fun _ => .onlyIf ?_
  exact .bind (.write fun _ => rfl) fun _ => wake_wakes _

theorem closePeer_wakes (i : Nat) : Wakes 50 (closePeer i) := by
  refine .locked rfl rfl (.bind .read fun s => .onlyIf ?_)
  refine .bind (.locked rfl rfl (.write fun _ => rfl)) fun _ => .bind (.write fun _ => rfl) fun _ => ?_
  refine .bind ((wake_wakes _).le rfl) fun _ => .bind ?_ fun _ => ?_
  · refine .locked rfl rfl (.bind .read fun s => .bind (.write fun _ => rfl) fun _ => ?_)
    exact .forEach (fun w => (enqueue_wakes _).le rfl) _
  · exact .bind (getSignals_wakes _) fun a => (notifySignals_wakes _ a).le rfl

theorem dropEndpoint_wakes (i : Nat) : Wakes 50 (dropEndpoint i) := by
  refine .bind .read fun s => .bind (.write fun _ => rfl) fun _ => .ite (fun _ => ?_) fun _ => .pure _
  exact .bind (closePeer_wakes i) fun _ => .bind .read fun _ => .bind (.write fun _ => rfl) fun _ => .pure _

theorem frameOp_wakes : ∀ op, Wakes 67 (frameOp op)
  | .alloc => .bind (.locked rfl rfl (.pure _)) fun _ => .locked rfl rfl (.pure _)
  | .free => .locked rfl rfl (.locked rfl rfl (.pure _))
  | .count => .locked rfl rfl (.pure _)

theorem dropVmo_wakes (i : Nat) : Wakes 67 (dropVmo i) :=
  .bind .read fun _ => .bind (.write fun _ => rfl) fun _ => .onlyIf (.forEach frameOp_wakes _)

theorem dropObj_wakes : ∀ o, Wakes 50 (dropObj o)
  | .pipeWrite i => .bind ((dropPipeWrite_wakes i).le rfl) fun _ => .pure _
  | .channel i => dropEndpoint_wakes i
  | .epoll i => .bind ((dropEpoll_wakes i).le rfl) fun _ => .pure _
  | .vmo i => .bind ((dropVmo_wakes i).le rfl) fun _ => .pure _
  | .other => .pure _

theorem dropObjs_wakes : ∀ n os, Wakes 50 (dropObjs n os)
  | 0, _ => .pure _
  | _ + 1, [] => .pure _
  | n + 1, o :: os => .bind (dropObj_wakes o) fun inner => dropObjs_wakes n (inner ++ os)

theorem closeHandles_wakes (which : Entry → Bool) (pid : Int) : Wakes 50 (closeHandles n which pid) :=
  .bind .read fun _ => .bind (.write fun _ => rfl) fun _ => dropObjs_wakes ..

theorem markDead_wakes (pid status : Int) : Wakes 10 (markDead n pid status) := by
  refine .bind (.bind .read fun _ => .pure _) fun p => .elim (.pure _) fun p => ?_
  refine .bind ?_ fun _ => .bind (.locked rfl rfl ((closeHandles_wakes _ _).le rfl)) fun _ => ?_
  · unfold setField
    exact .locked rfl rfl (.write fun _ => rfl)
  refine .bind ?_ fun _ => .bind ?_ fun _ => .pure _
  · unfold field
    exact .locked rfl rfl (.bind .read fun _ => .pure _)
  · exact .locked rfl rfl (.bind .read fun _ => .bind (.write fun _ => rfl) fun _ => .pure _)

theorem execClose_wakes (pid : Int) : Wakes 10 (execClose n pid) :=
  .bind (.bind .read fun _ => .pure _) fun _ =>
    .forSome fun _ => .locked rfl rfl ((closeHandles_wakes _ _).le rfl)

theorem wakeOwner_wakes (pid : Int) (fd : Nat) : Wakes 10 (wakeOwner pid fd) := by
  refine .bind (.bind .read fun _ => .pure _) fun p => .forSome fun p => .locked rfl rfl ?_
  split
  · exact (wakeEndpointWatchers_wakes _).le rfl
  · exact .pure _

end Drop

/-! ## The rest of the calls -/

section Rest
variable {n : Nat} {pid : Int}

theorem schedule_keeps : ∀ n, Keeps 2 (schedule n)
  | 0 => .pure _
  | n + 1 => by
    refine .bind (.locked rfl (.bind .read fun s => .bind (.forSome fun x => .write _) fun _ => .pure _)) fun next => ?_
    cases next with
    | none => exact .write _
    | some pid =>
      refine .bind (.locked rfl getProc_keeps) fun p => ?_
      cases p with
      | none => exact schedule_keeps n
      | some _ =>
        refine .bind (field_keeps rfl) fun state => ?_
        cases state.status with
        | some _ => exact schedule_keeps n
        | none => exact .bind (setField_keeps rfl) fun _ => .bind (.write _) fun _ => .locked rfl (.pure _)

theorem getCurrentProc_keeps : Keeps 2 getCurrentProc := .bind .read fun _ => .locked rfl getProc_keeps

theorem wakeFutex_keeps (tid : Nat) : Keeps 0 (wakeFutex tid) := by
  refine .locked rfl (.bind .read fun s => .bind (.write _) fun _ => .forEach (fun pid => ?_) _)
  refine .locked rfl (.bind getProc_keeps fun p => .forSome fun p => ?_)
  exact .bind (setField_keeps rfl) fun _ => enqueueWithPrio_keeps rfl

theorem unblock_keeps (pid : Int) : Keeps 2 (unblock pid) := by
  refine .locked rfl (.bind getProc_keeps fun p => .forSome fun p => ?_)
  exact .bind (setField_keeps rfl) fun _ => .bind (setField_keeps rfl) fun _ => wakeStopped_keeps.le rfl

theorem stuckWaiters_keeps : Keeps 2 (stuckWaiters pid) := by
  refine .locked rfl (.bind .read fun s => .bind (.forEach (fun x => ?_) _) fun _ => .pure _)
  exact .locked rfl (.pure _)

theorem tryAcquire_keeps (file : Nat) (req : FileLock) : Keeps 3 (tryAcquire file req) := by
  refine .locked rfl (.bind .read fun s => .ite (fun _ => .pure _) fun _ => ?_)
  exact .bind (.write _) fun _ => .pure _

theorem wakeLockWaiter_keeps (file : Nat) (req : FileLock) : Keeps 2 (wakeLockWaiter file req) := by
  refine .bind ((tryAcquire_keeps file req).le rfl) fun _ => .ite (fun _ => ?_) fun _ => .write _
  refine .bind (.locked rfl (.bind getProc_keeps fun p => .bind (.forSome fun _ => ?_) fun _ => .pure _)) fun prio =>
    .forSome fun _ => enqueueWithPrio_keeps rfl
  exact .bind (setField_keeps rfl) fun _ => .bind (setField_keeps rfl) fun _ => setField_keeps rfl

theorem releaseAllLocks_keeps : Keeps 1 (releaseAllLocks pid) := by
  refine .bind (.locked rfl (.write _)) fun _ => .bind (.locked rfl (.bind .read fun _ => .pure _)) fun _ => ?_
  refine .forEach (fun file => .locked rfl (.bind .read fun s => .bind (.write _) fun _ => .forEach (fun r => ?_) _)) _
  exact wakeLockWaiter_keeps file r

variable {status ppid : Int}

theorem tryWakeParent_keeps {parent prio child : Int} : Keeps 10 (tryWakeParent parent prio child status) := by
  refine .bind (.write _) fun _ => .bind (field_keeps rfl) fun _ => .onlyIf ?_
  exact .bind (setField_keeps rfl) fun _ => wakeStopped_keeps

theorem reparent_keeps (children : List Int) : Keeps 2 (reparent children) := by
  refine .locked rfl (.bind getProc_keeps fun init => .bind (.forSome fun _ => setField_keeps rfl) fun _ => ?_)
  refine .forEach (fun child => .bind getProc_keeps fun c => .forSome fun _ => .bind (.write _) fun _ => ?_) _
  exact .forSome fun i => .bind (field_keeps rfl) fun _ => .forSome fun _ => tryWakeParent_keeps.le rfl

theorem wakeParent_keeps : Keeps 2 (wakeParent ppid pid status) :=
  .locked rfl (.bind getProc_keeps fun _ => .forSome fun _ => tryWakeParent_keeps.le rfl)

theorem wakeOrphans_keeps (children : List Int) : Keeps 2 (wakeOrphans pid children) := by
  refine .locked rfl (.bind .read fun s => .forEach (fun pgid => .bind .read fun s => .onlyIf ?_) _)
  exact .forEach (fun x => .bind (.write _) fun _ => wakeStopped_keeps.le rfl) _

theorem exitRest_keeps (d : Dying) : Keeps 0 (exitRest pid status d) := by
  refine .bind (.forEach (fun q => (unblock_keeps q).le rfl) _) fun _ => .bind (stuckWaiters_keeps.le rfl) fun _ => ?_
  refine .bind (.forEach (fun q => (unblock_keeps q).le rfl) _) fun _ => .bind (.locked rfl (.write _)) fun _ => ?_
  refine .bind (releaseAllLocks_keeps.le rfl) fun _ => .bind (.onlyIf ((reparent_keeps _).le rfl)) fun _ => ?_
  exact .bind (.onlyIf (wakeParent_keeps.le rfl)) fun _ => .onlyIf ((wakeOrphans_keeps _).le rfl)

theorem execLoad_keeps (a : ExecArgs) : Keeps 2 (execLoad a) := by
  refine .bind .require fun _ => .bind getCurrentProc_keeps fun p => .bind .require fun _ => ?_
  refine .bind ((frameOps_keeps _).le rfl) fun _ => .bind .require fun _ => .bind (.write _) fun _ => ?_
  exact .bind (.locked rfl (.pure _)) fun _ => (frameOps_keeps _).le rfl

theorem execReset_keeps : Keeps 2 (execReset pid) := by
  refine .locked rfl (.bind getProc_keeps fun p => .forSome fun _ => ?_)
  exact .bind (setField_keeps rfl) fun _ => .bind (setField_keeps rfl) fun _ =>
    .bind (.locked rfl (.pure _)) fun _ => .locked rfl (.pure _)

theorem parentOf_keeps : Keeps 2 (parentOf ppid) :=
  .ite (fun _ => .pure _) fun _ => .locked rfl getProc_keeps

theorem inheritFds_keeps : Keeps 2 (inheritFds ppid) := by
  refine .ite (fun _ => .bind (.locked rfl (.pure _)) fun _ => .pure _) fun _ => ?_
  refine .bind (.locked rfl getProc_keeps) fun p => .elim (.pure _) fun _ => ?_
  exact .locked rfl (.bind .read fun _ => .bind (.write _) fun _ => .pure _)

theorem inheritIdentity_keeps : Keeps 2 (inheritIdentity ppid pid) := by
  refine .ite (fun _ => .pure _) fun _ => .locked rfl (.bind getProc_keeps fun p => .elim (.pure _) fun p => ?_)
  exact .locked rfl (.locked rfl (.locked rfl (.locked rfl (.locked rfl (.pure _)))))

theorem processNew_keeps (env : ForkEnv) (ppid : Int) : Keeps 2 (processNew env ppid) := by
  refine .bind (.locked rfl (.bind .read fun _ => .pure _)) fun _ => .bind .require fun _ => ?_
  refine .bind .read fun s => .bind (.write _) fun _ => .bind ((frameOps_keeps _).le rfl) fun _ => ?_
  refine .bind .require fun _ => .bind (.onlyIf ((frameOps_keeps _).le rfl)) fun _ => .bind .require fun _ => ?_
  refine .bind inheritFds_keeps fun fds => .bind inheritIdentity_keeps fun ids => .bind parentOf_keeps fun p => ?_
  refine .bind (.onlyIf (.locked rfl (.pure _))) fun _ => .bind (.locked rfl (.pure _)) fun _ => ?_
  refine .bind (.locked rfl (.write _)) fun _ => .bind parentOf_keeps fun p => ?_
  exact .bind (.forSome fun _ => setField_keeps rfl) fun _ => .pure _

end Rest

end OpenV.Sync
