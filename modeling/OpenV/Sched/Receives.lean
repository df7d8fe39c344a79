import OpenV.Sched.Sleep

/- Receives with a bad pointer (`syscall/ipc.rs`). The message in the state word is
   taken when the pointer is known to be good; an interrupt message, a sender and a
   message of the mailbox are out of their queue before it is looked at. -/
namespace OpenV.Sched

inductive Receive where
  | ipc (src : Pid) (ptr : Nat)
  | mailbox (ptr maxLen : Nat)

/-- Where messages are: the state word, the pending interrupts, the waiting senders and the mailbox. -/
def Proc.messages (p : Proc) : IpcState × List Message × List Pid × List (Pid × List (BitVec 8)) :=
  (p.ipc, p.irqPending, p.senders, p.mailbox)

namespace Receive

/-- The call on hart `h`; nothing comes out of a kernel panic. -/
def run (h : Nat) (s : Os) : Receive → Option Os
  | ipc src ptr => (s.ipcReceive h (s.current h) src ptr).map Prod.fst
  | mailbox ptr maxLen => some (s.sysMailboxReceive h ptr maxLen)

/-- The pointer is bad for what the call would return. -/
def badPtr (p : Proc) : Receive → Bool
  | ipc _ ptr => !isUserPointerValid messageSize ptr 1
  | mailbox ptr maxLen => p.mailbox.head?.any fun x => !isUserPointerValid 1 ptr (min maxLen x.2.length)

/-- If the call returns, every message is where it was, and so is every sender. -/
def LosesNothing (h : Nat) (s : Os) (r : Receive) : Prop :=
  ∀ s', r.run h s = some s' → s'.current h ≠ 0 → ∀ q, (s'.proc q).map Proc.messages = (s.proc q).map Proc.messages

/-- Nothing is taken out of a queue: a message is in the state word, or neither an interrupt message nor a sender
fits the filter. -/
def TakesNothing (s : Os) (p : Proc) : Receive → Prop
  | ipc src _ => (∃ m, p.ipc = .messageAvailable m) ∨ (p.irqPending.find? fun m => accepts src m.source) = none ∧
      ∀ q, (p.senders.find? fun q => accepts src q) = some q → s.proc q = none
  | mailbox _ _ => False

end Receive

/-- A change of the caller's messages is seen, whatever the caller is told. -/
theorem messages_changed {s : Os} {me : Pid} {p : Proc} {f : Proc → Proc} (v : Nat) (hp : s.proc me = some p)
    (hne : (f p).messages ≠ p.messages) :
    ((((s.setProc me f).setA0 me v).proc me).map Proc.messages) ≠ (s.proc me).map Proc.messages := by
  intro e
  rw [Os.setA0, Os.proc_setProc_self, Os.proc_setProc_self, hp] at e
  exact hne (Option.some.inj e)

/-- A receive with a bad pointer loses nothing exactly if it takes nothing out of a queue. -/
theorem receive_loses_nothing_iff {s : Os} {h : Nat} {p : Proc} (h0 : s.current h ≠ 0)
    (hp : s.proc (s.current h) = some p) (r : Receive) (hbad : r.badPtr p = true) :
    r.TakesNothing s p ↔ r.LosesNothing h s := by
  cases r with
  | mailbox ptr maxLen =>
    refine iff_of_false id fun hl => ?_
    have hrun := hl (s.sysMailboxReceive h ptr maxLen) rfl
    unfold Os.sysMailboxReceive at hrun
    cases hm : p.mailbox with
    | nil => simp [Receive.badPtr, hm] at hbad
    | cons x rest =>
      simp only [hp, hm] at hrun
      exact messages_changed _ hp (by simp [Proc.messages, hm]) (hrun h0 _)
  | ipc src ptr =>
    have hv : isUserPointerValid messageSize ptr 1 = false := by simpa [Receive.badPtr] using hbad
    simp only [Receive.LosesNothing, Receive.run, Os.ipcReceive, hp, hv, Receive.TakesNothing]
    split
    · rename_i m hi
      refine iff_of_true (.inl ⟨m, hi⟩) fun s' hs' _ q => ?_
      cases hs'
      rw [Os.setA0, Os.proc_setProc]
      split
      · rw [Option.map_map]
        rfl
      · rfl
    rename_i hi
    rw [or_iff_right fun ⟨m, hm⟩ => hi m hm]
    split
    · rename_i m hf
      rw [hf]
      refine iff_of_false (fun e => nomatch e.1) fun hl => ?_
      exact messages_changed _ hp (by simp [Proc.messages, List.mem_of_find?_eq_some hf]) (hl _ rfl h0 _)
    rename_i hf
    rw [hf, and_iff_right rfl, Os.receiveQueued]
    cases hq : p.senders.find? fun q => accepts src q with
    | none =>
      -- the caller goes to sleep
      refine iff_of_true nofun fun s' hs' hc => absurd ?_ hc
      cases hs'
      exact Function.update_self ..
    | some q =>
      simp only [Option.some.injEq, forall_eq', hv, Os.proc_setProc]
      cases hs : s.proc q with
      | none =>
        refine iff_of_true rfl ?_
        simp
      | some b =>
        refine iff_of_false nofun fun hl => ?_
        refine messages_changed usizeMax hp ?_ (hl ((s.setProc (s.current h) fun p =>
          { p with senders := p.senders.erase q }).setA0 (s.current h) usizeMax) ?_ h0 _)
        · simp [Proc.messages, List.mem_of_find?_eq_some hq]
        · by_cases e : q = s.current h <;> simp only [e, if_false, Option.map_some] <;> cases b.ipc <;> rfl

/-- One message in the mailbox, and one in the state word. -/
def receiveExample : Os :=
  { Os.start [(1, { mailbox := [(2, [7])], ipc := .messageAvailable ⟨2, 0, []⟩ })] with current := fun _ => 1 }

theorem receive_keeps_word : (Receive.ipc 2 0).LosesNothing 0 receiveExample :=
  (receive_loses_nothing_iff (by decide) rfl (.ipc 2 0) rfl).mp (.inl ⟨_, rfl⟩)

/-- A message of the mailbox is gone after a receive with a null pointer. -/
theorem receive_loses_mail : ¬(Receive.mailbox 0 8).LosesNothing 0 receiveExample := by
  intro hl
  have hmail := congrArg (Option.map fun m => m.2.2.2) (hl _ rfl (by decide) 1)
  exact absurd hmail (by decide)

end OpenV.Sched
