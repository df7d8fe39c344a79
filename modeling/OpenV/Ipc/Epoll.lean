import OpenV.Lib.Run

/- Edge-triggered epoll (`src/syscall/epoll.rs`). `collect_ready` compares the level that it finds at a
   descriptor with the level that the look before has found: what happened in between shows in the two
   levels or not at all. -/
namespace OpenV.Epoll

open Cmd

def epollIn : BitVec 32 := 0x001
def epollOut : BitVec 32 := 0x004
def epollHup : BitVec 32 := 0x010
def epollNval : BitVec 32 := 0x020
def epollRdnorm : BitVec 32 := 0x040
def epollWrnorm : BitVec 32 := 0x100
def epollEt : BitVec 32 := 1 <<< 31

/-- What a descriptor stands for, as far as `check_fd_readiness` looks at it. -/
inductive Watched where
  | closed
  | pipeRead (isEmpty writeOpen : Bool)
  | pipeWrite
  | channel (isEmpty peerClosed writable pendingAccept : Bool)
  | tty (isEmpty ctrlc : Bool)
  | vfsFile
  /-- memory objects, ports, jobs, resources and epoll instances -/
  | other

/-- `if p { events |= bits; }` -/
def sets (p : Bool) (bits : BitVec 32) : BitVec 32 := if p then bits else 0

def checkFdReadiness (interest : BitVec 32) (w : Watched) : BitVec 32 :=
  let inBits := epollIn ||| epollRdnorm
  let outBits := epollOut ||| epollWrnorm
  let wantsIn := interest &&& inBits != 0
  let wantsOut := interest &&& outBits != 0
  match w with
  | .closed | .other => sets (interest &&& epollNval != 0) epollNval
  | .pipeRead isEmpty writeOpen => sets (wantsIn && !isEmpty) inBits ||| sets (!writeOpen) epollHup
  | .pipeWrite => sets wantsOut outBits
  | .channel isEmpty peerClosed writable pendingAccept =>
    sets (wantsIn && !isEmpty) inBits ||| sets peerClosed epollHup ||| sets (wantsOut && writable) outBits |||
      sets pendingAccept inBits
  | .tty isEmpty ctrlc => sets (wantsIn && (!isEmpty || ctrlc)) inBits ||| sets wantsOut outBits
  | .vfsFile => sets wantsIn inBits ||| sets wantsOut outBits

/-- An event becomes ready with the change from `w` to `w'`. -/
def rises (events : BitVec 32) (w w' : Watched) : Bool :=
  checkFdReadiness events w' &&& ~~~checkFdReadiness events w != 0

/-- An entry of the interest list. The last two fields are not in the source: what the descriptor was at the last
look, and whether an event has become ready since. -/
structure Item where
  events : BitVec 32
  data : BitVec 64
  lastState : BitVec 32
  base : Watched
  risen : Bool

/-- A new entry. What is ready from the start has become ready with it. -/
def Item.new (events : BitVec 32) (data : BitVec 64) (w : Watched) : Item :=
  ⟨events, data, checkFdReadiness events w, w, checkFdReadiness events w != 0⟩

/-- The events that a look at the descriptor reports. -/
def Item.report (it : Item) (w : Watched) : BitVec 32 :=
  if it.events &&& epollEt ≠ 0 then checkFdReadiness it.events w &&& ~~~it.lastState else checkFdReadiness it.events w

def Item.looked (it : Item) (w : Watched) : Item :=
  if it.events &&& epollEt ≠ 0 then
    { it with lastState := checkFdReadiness it.events w, base := w, risen := false }
  else it

/-- The entries with their descriptors, in the order of these, and what the descriptors stand for. -/
structure Instance where
  items : List (Int × Item) := []
  now : Int → Watched := fun _ => .closed

/-- The event of a round of the loop, if there is one. -/
def event (now : Int → Watched) (x : Int × Item) : Option (BitVec 32 × BitVec 64) :=
  if x.2.report (now x.1) = 0 then none else some (x.2.report (now x.1), x.2.data)

def collectReady (now : Int → Watched) (maxevents : Nat) :
    List (Int × Item) → List (BitVec 32 × BitVec 64) → List (BitVec 32 × BitVec 64) × List (Int × Item)
  | [], ready => (ready, [])
  | x :: rest, ready =>
    if maxevents ≤ ready.length then (ready, x :: rest)
    else
      let r := collectReady now maxevents rest (ready ++ (event now x).toList)
      (r.1, (x.1, x.2.looked (now x.1)) :: r.2)

/-- A change of a descriptor, an operation of `sys_epoll_ctl`, or a pass of `sys_epoll_pwait` over the list. -/
inductive Step where
  | change (fd : Int) (w : Watched)
  | add (fd : Int) (events : BitVec 32) (data : BitVec 64)
  | mod (fd : Int) (events : BitVec 32) (data : BitVec 64)
  | del (fd : Int)
  | wait (maxevents : Nat)

/-- The entry of `fd`, or the place for one. -/
def Instance.put (s : Instance) (fd : Int) (it : Item) : Instance :=
  { s with items := s.items.filter (·.1 < fd) ++ (fd, it) :: s.items.filter (fd < ·.1) }

/-- A change of the list that is refused with `e` unless `p` holds. -/
def ctl (p : Instance → Bool) (e : String) (f : Instance → Instance) : Cmd Instance Unit := do
  let s ← Cmd.get
  Cmd.require (p s) e
  Cmd.modify f

def Step.exec : Step → Cmd Instance Unit
  | change fd w => Cmd.modify fun s =>
    { items := s.items.map fun x =>
        if x.1 = fd then (fd, { x.2 with risen := x.2.risen || rises x.2.events (s.now fd) w }) else x
      now := Function.update s.now fd w }
  | add fd events data =>
    ctl (fun s => s.items.all (·.1 != fd)) "EEXIST" fun s => s.put fd (.new events data (s.now fd))
  | mod fd events data =>
    ctl (fun s => s.items.any (·.1 == fd)) "ENOENT" fun s => s.put fd (.new events data (s.now fd))
  | del fd => ctl (fun s => s.items.any (·.1 == fd)) "ENOENT" fun s => { s with items := s.items.filter (·.1 != fd) }
  | wait maxevents => Cmd.modify fun s => { s with items := (collectReady s.now maxevents s.items []).2 }

/-- An edge-triggered entry with an event that has become ready since the last look. -/
def Item.Due (it : Item) : Prop := it.events &&& epollEt ≠ 0 ∧ it.risen = true

/-- A wait reports an event for every entry that is due, or does not come to it and leaves it as it is. -/
def Step.Reports : Step → Instance → Prop
  | wait maxevents, s => ∀ x ∈ s.items, x.2.Due →
    (∃ e, (e, x.2.data) ∈ (collectReady s.now maxevents s.items []).1) ∨
      x ∈ (collectReady s.now maxevents s.items []).2
  | _, _ => True

/-- At every entry that is due a wait would find an event that was not ready at the last look. -/
def Step.Sees : Step → Instance → Prop
  | wait _, s => ∀ x ∈ s.items, x.2.Due → rises x.2.events x.2.base (s.now x.1) = true
  | _, _ => True

/-- The level that is kept is that of the last look. -/
def Item.Sampled (it : Item) : Prop := it.lastState = checkFdReadiness it.events it.base

def Instance.Sampled (s : Instance) : Prop := ∀ x ∈ s.items, x.2.Sampled

section Collect
variable {now : Int → Watched} {maxevents : Nat} {items : List (Int × Item)} {ready : List (BitVec 32 × BitVec 64)}

/-- What is reported stays in the list. -/
theorem mem_ready {e : BitVec 32 × BitVec 64} (he : e ∈ ready) : e ∈ (collectReady now maxevents items ready).1 := by
  induction items generalizing ready with
  | nil => exact he
  | cons x rest ih =>
    rw [collectReady]
    split
    · exact he
    · apply ih
      exact List.mem_append_left _ he

/-- An entry with an event is reported if the loop comes to it. -/
theorem mem_collectReady {x : Int × Item} {e : BitVec 32 × BitVec 64} (hx : x ∈ items) (he : event now x = some e) :
    e ∈ (collectReady now maxevents items ready).1 ∨ x ∈ (collectReady now maxevents items ready).2 := by
  induction items generalizing ready with
  | nil => cases hx
  | cons y rest ih =>
    rw [collectReady]
    split
    · exact .inr hx
    · rcases List.mem_cons.mp hx with rfl | hx
      · left
        apply mem_ready
        simp [he]
      · exact (ih hx).imp id (List.mem_cons_of_mem _)

/-- The pass keeps what a look keeps. -/
theorem all_collectReady {P : Item → Prop} (hP : ∀ x ∈ items, P x.2) (hlook : ∀ it w, P it → P (it.looked w)) :
    ∀ x ∈ (collectReady now maxevents items ready).2, P x.2 := by
  induction items generalizing ready with
  | nil => exact hP
  | cons y rest ih =>
    rw [collectReady]
    split
    · exact hP
    · intro x hx
      rcases List.mem_cons.mp hx with rfl | hx
      · exact hlook _ _ (hP y (.head _))
      · exact ih (fun x hx => hP x (.tail _ hx)) x hx

end Collect

variable {it : Item} {s : Instance}

theorem Item.Sampled.looked (h : it.Sampled) (w : Watched) : (it.looked w).Sampled := by
  unfold Item.looked
  split
  · rfl
  · exact h

theorem Instance.Sampled.put (h : s.Sampled) (fd : Int) (hit : it.Sampled) : (s.put fd it).Sampled := by
  intro x hx
  rcases List.mem_append.mp hx with hx | hx
  · exact h x ((List.mem_filter.mp hx).1)
  · rcases List.mem_cons.mp hx with rfl | hx
    · exact hit
    · exact h x ((List.mem_filter.mp hx).1)

theorem Instance.Sampled.ctl (h : s.Sampled) {p : Instance → Bool} {e : String} {f : Instance → Instance}
    (hf : (f s).Sampled) : (ctl p e f).endsIn Instance.Sampled s := by
  simp only [Epoll.ctl, Cmd.require, wp_bind, wp_get, wp_ite, wp_pure, wp_fail, wp_modify]
  exact ⟨fun _ => hf, fun _ => h⟩

theorem Step.sampled (st : Step) (h : s.Sampled) : st.exec.endsIn Instance.Sampled s := by
  cases st with
  | change fd w =>
    refine (wp_modify _).mpr fun x hx => ?_
    obtain ⟨y, hy, rfl⟩ := List.mem_map.mp hx
    have hy := h y hy
    split
    · exact hy
    · exact hy
  | wait maxevents => exact (wp_modify _).mpr (all_collectReady h fun _ w hit => hit.looked w)
  | add fd events data => exact h.ctl (h.put fd rfl)
  | mod fd events data => exact h.ctl (h.put fd rfl)
  | del fd => exact h.ctl fun x hx => h x (List.mem_filter.mp hx).1

theorem Step.reports_of_sees (h : s.Sampled) {st : Step} (hsees : st.Sees s) : st.Reports s := by
  cases st with
  | wait maxevents =>
    intro x hx hdue
    have hreport : x.2.report (s.now x.1) ≠ 0 := by
      rw [Item.report, if_pos hdue.1, h x hx]
      exact bne_iff_ne.mp (hsees x hx hdue)
    exact (mem_collectReady hx (if_neg hreport)).imp (fun he => ⟨_, he⟩) id
  | _ => trivial

/-- The read end of a pipe, edge-triggered. -/
def pipeSteps : List Step := [.change 3 (.pipeRead true true), .add 3 (epollIn ||| epollEt) 7,
  .change 3 (.pipeRead false true), .wait 1]

end OpenV.Epoll
