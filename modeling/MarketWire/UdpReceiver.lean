import MarketWire.Listen
import MarketWire.Library.Transition

/-! The receive loop and the calls that stop it, interleaved in any order: the flag, the wake
pipe and the socket are what the threads share. Accesses to the flag are taken one at a time. -/
namespace MarketWire
open Library

/-- Where the receive loop stands: about to call `receive`, before its first test of the flag,
in `poll`, behind it with what it saw of the wake pipe, in `recv`, behind the call, or over. -/
inductive Place where
  | loop
  | entered
  | polling
  | polled (wakeReadable : Bool)
  | receiving
  | returned (datagram : Bytes)
  | stopped
  | threw (what : String)
  deriving DecidableEq, Repr

/-- The receiver with what the kernel holds for it. `writers` counts the calls of `request_stop`
between setting the flag and writing, `unwritten` those whose write failed; the last three fields
are a record of what happened. -/
structure UdpReceiver where
  stopRequested : Bool := false
  wakePipe : Nat := 0
  socket : List Bytes := []
  socketError : Bool := false
  place : Place := .loop
  writers : Nat := 0
  unwritten : Nat := 0
  arrived : List Bytes := []
  taken : List Bytes := []
  handled : List Arrival := []
  deriving DecidableEq

/-- The steps of the loop, then what happens to it: signals, failures of `poll`, calls of
`request_stop`, and the network. -/
inductive ReceiverAction where
  | call
  | test
  | poll
  | decide
  | recv
  | recvFails
  | loopTest (ns : UInt64) (sendFails : Option String)
  | interrupt
  | pollFails
  | requestStop
  | write
  | writeFails
  | datagram (d : Bytes)
  | socketError
  deriving DecidableEq, Repr

namespace UdpReceiver

/-- The default of `receive`. -/
def maxDatagram : Nat := 65536

/-- Behind a failed `recv`. -/
def recvFailed (r : UdpReceiver) : UdpReceiver :=
  { r with place := if r.stopRequested then .returned [] else .threw "recv" }

def step (r : UdpReceiver) : ReceiverAction → Option UdpReceiver
  | .call => if r.place=.loop then some { r with place := .entered } else none
  | .test =>
    if r.place=.entered then
      some { r with place := if r.stopRequested then .returned [] else .polling }
    else none
  -- there is no timeout: `poll` returns when one of the two can be read, or with an error
  | .poll =>
    if r.place=.polling ∧ (r.socket≠[] ∨ r.socketError ∨ 0<r.wakePipe) then
      some { r with place := .polled (0<r.wakePipe) }
    else none
  | .decide =>
    match r.place with
    | .polled wakeReadable =>
      some { r with place := if wakeReadable || r.stopRequested then .returned [] else .receiving }
    | _ => none
  | .recv =>
    match r.place,r.socketError,r.socket with
    | .receiving,false,d::rest =>
      some { r with
        place := .returned (d.take maxDatagram), socket := rest, taken := r.taken++[d] }
    | _,_,_ => none
  | .recvFails =>
    if r.place=.receiving ∧ r.socketError then some { r.recvFailed with socketError := false }
    else none
  -- `if (d.empty() && socket.stop_requested()) break;`
  | .loopTest ns sendFails =>
    match r.place with
    | .returned d =>
      let stop := d.isEmpty && r.stopRequested
      some { r with
        place := if stop then .stopped else .loop,
        handled := r.handled++[⟨stop,ns,d,sendFails⟩] }
    | _ => none
  | .interrupt =>
    match r.place with
    | .polling => some { r with place := .entered }
    | .receiving => some r.recvFailed
    | _ => none
  | .pollFails => if r.place=.polling then some { r with place := .threw "poll" } else none
  | .requestStop =>
    if r.stopRequested then some r
    else some { r with stopRequested := true, writers := r.writers+1 }
  | .write =>
    if 0<r.writers then some { r with writers := r.writers-1, wakePipe := r.wakePipe+1 } else none
  | .writeFails =>
    if 0<r.writers then some { r with writers := r.writers-1, unwritten := r.unwritten+1 }
    else none
  | .datagram d => some { r with socket := r.socket++[d], arrived := r.arrived++[d] }
  | .socketError => some { r with socketError := true }

/-- The steps that the loop takes by itself. -/
def own : ReceiverAction → Bool
  | .call | .test | .poll | .decide | .recv | .recvFails | .loopTest _ _ => true
  | _ => false

/-- One call of `request_stop` has the wake pipe to itself; `recv` is entered only when it has
something to return; and the queue is served from the front. -/
structure Sound (r : UdpReceiver) : Prop where
  wake : r.wakePipe+r.writers+r.unwritten=if r.stopRequested then 1 else 0
  polled : r.place=.polled true → r.stopRequested=true
  readable : r.place=.polled false ∨ r.place=.receiving → r.socket≠[] ∨ r.socketError=true
  queue : r.arrived=r.taken++r.socket

/-- The datagrams that `recv` has returned. -/
def seen (r : UdpReceiver) : List Bytes := r.taken.map (List.take maxDatagram)

/-- The loop has gone on with `regular`; it may hold one more datagram, or be told to stop. -/
def GoneOn (r : UdpReceiver) (regular : List Arrival) : Prop :=
  (∀ a∈regular, a.stopRequested=false) ∧
    match r.place with
    | .returned d => r.handled=regular ∧
      (r.seen=regular.map Arrival.datagram++[d] ∨
        d=[] ∧ r.stopRequested=true ∧ r.seen=regular.map Arrival.datagram)
    | .stopped => r.stopRequested=true ∧ (∃ ns fails, r.handled=regular++[⟨true,ns,[],fails⟩]) ∧
      (r.seen=regular.map Arrival.datagram++[[]] ∨ r.seen=regular.map Arrival.datagram)
    | _ => r.handled=regular ∧ r.seen=regular.map Arrival.datagram

section Step
variable {r r' : UdpReceiver} {a : ReceiverAction} {regular : List Arrival} {ns : UInt64}
  {fails : Option String}

theorem Sound.fresh : Sound {} := ⟨rfl,nofun,nofun,rfl⟩

theorem Sound.stop_of_wake (h : Sound r) (hw : 0<r.wakePipe) : r.stopRequested=true := by
  have hwake := h.wake
  cases hs : r.stopRequested with
  | true => rfl
  | false =>
    rw [hs] at hwake
    simp at hwake
    omega

/-- Going somewhere else, with the reason for going there. -/
theorem Sound.move (h : Sound r) {p : Place} (hpolled : p=.polled true → r.stopRequested=true)
    (hread : p=.polled false ∨ p=.receiving → r.socket≠[] ∨ r.socketError=true) :
    Sound { r with place := p } := ⟨h.wake,hpolled,hread,h.queue⟩

theorem Sound.recvFailed (h : Sound r) : Sound r.recvFailed := by
  unfold UdpReceiver.recvFailed
  split_ifs
  · exact h.move nofun (by simp)
  · exact h.move nofun (by simp)

theorem Sound.step (h : Sound r) (hs : step r a=some r') : Sound r' := by
  cases a with
  | call =>
    simp only [UdpReceiver.step,Option.ite_none_right_eq_some,Option.some.injEq] at hs
    obtain ⟨-,rfl⟩ := hs
    exact h.move nofun (by simp)
  | test =>
    simp only [UdpReceiver.step,Option.ite_none_right_eq_some,Option.some.injEq] at hs
    obtain ⟨-,rfl⟩ := hs
    split_ifs
    · exact h.move nofun (by simp)
    · exact h.move nofun (by simp)
  | poll =>
    simp only [UdpReceiver.step,Option.ite_none_right_eq_some,Option.some.injEq] at hs
    obtain ⟨⟨-,hready⟩,rfl⟩ := hs
    refine h.move (fun ht => h.stop_of_wake (by simpa using ht)) fun ht => ?_
    have hw : ¬0<r.wakePipe := by simpa using ht
    obtain hs | he | hw' := hready
    · exact .inl hs
    · exact .inr he
    · exact absurd hw' hw
  | decide =>
    simp only [UdpReceiver.step] at hs
    split at hs
    · rename_i w hw
      cases hs
      split_ifs with hc
      · exact h.move nofun (by simp)
      · rw [Bool.or_eq_true,not_or,Bool.not_eq_true] at hc
        exact h.move nofun fun _ => h.readable (.inl (by rw [hw,hc.1]))
    · cases hs
  | recv =>
    simp only [UdpReceiver.step] at hs
    split at hs
    · rename_i d rest hp he hd
      cases hs
      refine ⟨h.wake,nofun,by simp,?_⟩
      rw [h.queue,hd]
      simp
    · cases hs
  | recvFails =>
    simp only [UdpReceiver.step,Option.ite_none_right_eq_some,Option.some.injEq] at hs
    obtain ⟨-,rfl⟩ := hs
    obtain ⟨hw,hp,-,hq⟩ := h.recvFailed
    refine ⟨hw,hp,?_,hq⟩
    dsimp only [UdpReceiver.recvFailed]
    split_ifs <;> simp
  | loopTest ns fails =>
    simp only [UdpReceiver.step] at hs
    split at hs
    · cases hs
      refine ⟨h.wake,?_,?_,h.queue⟩ <;>
        · dsimp only
          split_ifs <;> simp
    · cases hs
  | interrupt =>
    simp only [UdpReceiver.step] at hs
    split at hs
    · cases hs
      exact h.move nofun (by simp)
    · cases hs
      exact h.recvFailed
    · cases hs
  | pollFails =>
    simp only [UdpReceiver.step,Option.ite_none_right_eq_some,Option.some.injEq] at hs
    obtain ⟨-,rfl⟩ := hs
    exact h.move nofun (by simp)
  | requestStop =>
    have hwake := h.wake
    simp only [UdpReceiver.step] at hs
    split_ifs at hs with hstop
    · cases hs
      exact h
    · cases hs
      rw [if_neg hstop] at hwake
      refine ⟨?_,fun _ => rfl,h.readable,h.queue⟩
      dsimp only
      rw [if_pos rfl]
      omega
  | write =>
    simp only [UdpReceiver.step,Option.ite_none_right_eq_some,Option.some.injEq] at hs
    obtain ⟨hpos,rfl⟩ := hs
    refine ⟨?_,h.polled,h.readable,h.queue⟩
    rw [← h.wake]
    dsimp only
    omega
  | writeFails =>
    simp only [UdpReceiver.step,Option.ite_none_right_eq_some,Option.some.injEq] at hs
    obtain ⟨hpos,rfl⟩ := hs
    refine ⟨?_,h.polled,h.readable,h.queue⟩
    rw [← h.wake]
    dsimp only
    omega
  | datagram d =>
    cases hs
    refine ⟨h.wake,h.polled,fun _ => .inl (by simp),?_⟩
    dsimp only
    rw [h.queue,List.append_assoc]
  | socketError =>
    cases hs
    exact ⟨h.wake,h.polled,fun _ => .inr rfl,h.queue⟩

theorem GoneOn.recvFailed (h : GoneOn r regular) (hp : r.place=.receiving) :
    GoneOn r.recvFailed regular := by
  obtain ⟨hreg,hplace⟩ := h
  rw [hp] at hplace
  unfold UdpReceiver.recvFailed
  split_ifs with hstop
  · exact ⟨hreg,hplace.1,.inr ⟨rfl,hstop,hplace.2⟩⟩
  · exact ⟨hreg,hplace⟩

/-- The loop goes on with the datagram that it holds, or stops. -/
theorem GoneOn.loopTest {d : Bytes} (h : GoneOn r regular) (hp : r.place=.returned d)
    (hs : step r (.loopTest ns fails)=some r') : ∃ regular', GoneOn r' regular' := by
  obtain ⟨hreg,hplace⟩ := h
  simp only [UdpReceiver.step,hp,Option.some.injEq] at hs
  subst hs
  rw [hp] at hplace
  obtain ⟨hhandled,hseen⟩ := hplace
  by_cases hstop : d=[] ∧ r.stopRequested=true
  · obtain ⟨rfl,hstop⟩ := hstop
    refine ⟨regular,hreg,?_⟩
    simp only [List.isEmpty_nil,hstop,Bool.and_self,if_true]
    refine ⟨trivial,⟨ns,fails,by rw [hhandled]⟩,?_⟩
    exact hseen.imp_right fun hs => hs.2.2
  · have hcond : (d.isEmpty && r.stopRequested)=false := by
      rw [Bool.and_eq_false_iff]
      by_cases hd : d=[]
      · exact .inr (Bool.eq_false_iff.mpr fun hs => hstop ⟨hd,hs⟩)
      · exact .inl (by simpa using hd)
    have hseen' : r.seen=regular.map Arrival.datagram++[d] :=
      hseen.resolve_right fun hs => hstop ⟨hs.1,hs.2.1⟩
    refine ⟨regular++[⟨false,ns,d,fails⟩],List.forall_mem_append.mpr ⟨hreg,by simp⟩,?_⟩
    simp only [hcond,Bool.false_eq_true,if_false]
    refine ⟨by rw [hhandled],?_⟩
    rw [List.map_append]
    exact hseen'

/-- What a step does to the datagrams that the loop has gone on with. -/
theorem GoneOn.step (h : GoneOn r regular) (hsound : Sound r) (hs : step r a=some r') :
    ∃ regular', GoneOn r' regular' := by
  obtain ⟨hreg,hplace⟩ := h
  cases a with
  | call =>
    simp only [UdpReceiver.step,Option.ite_none_right_eq_some,Option.some.injEq] at hs
    obtain ⟨hp,rfl⟩ := hs
    rw [hp] at hplace
    exact ⟨regular,hreg,hplace⟩
  | test =>
    simp only [UdpReceiver.step,Option.ite_none_right_eq_some,Option.some.injEq] at hs
    obtain ⟨hp,rfl⟩ := hs
    rw [hp] at hplace
    refine ⟨regular,hreg,?_⟩
    split_ifs with hstop
    · exact ⟨hplace.1,.inr ⟨rfl,hstop,hplace.2⟩⟩
    · exact hplace
  | poll =>
    simp only [UdpReceiver.step,Option.ite_none_right_eq_some,Option.some.injEq] at hs
    obtain ⟨⟨hp,-⟩,rfl⟩ := hs
    rw [hp] at hplace
    exact ⟨regular,hreg,hplace⟩
  | decide =>
    simp only [UdpReceiver.step] at hs
    split at hs
    · rename_i w hw
      cases hs
      rw [hw] at hplace
      refine ⟨regular,hreg,?_⟩
      split_ifs with hc
      · have hstop : r.stopRequested=true := by
          cases w with
          | true => exact hsound.polled hw
          | false => simpa using hc
        exact ⟨hplace.1,.inr ⟨rfl,hstop,hplace.2⟩⟩
      · exact hplace
    · cases hs
  | recv =>
    simp only [UdpReceiver.step] at hs
    split at hs
    · rename_i d rest hp he hd
      cases hs
      rw [hp] at hplace
      refine ⟨regular,hreg,hplace.1,.inl ?_⟩
      rw [← hplace.2]
      simp [seen]
    · cases hs
  | recvFails =>
    simp only [UdpReceiver.step,Option.ite_none_right_eq_some,Option.some.injEq] at hs
    obtain ⟨⟨hp,-⟩,rfl⟩ := hs
    exact ⟨regular,GoneOn.recvFailed ⟨hreg,hplace⟩ hp⟩
  | loopTest ns fails =>
    obtain ⟨d,hp⟩ : ∃ d, r.place=.returned d := by
      simp only [UdpReceiver.step] at hs
      split at hs
      · exact ⟨_,‹_›⟩
      · cases hs
    exact GoneOn.loopTest ⟨hreg,hplace⟩ hp hs
  | interrupt =>
    simp only [UdpReceiver.step] at hs
    split at hs
    · rename_i hp
      cases hs
      rw [hp] at hplace
      exact ⟨regular,hreg,hplace⟩
    · rename_i hp
      cases hs
      exact ⟨regular,GoneOn.recvFailed ⟨hreg,hplace⟩ hp⟩
    · cases hs
  | pollFails =>
    simp only [UdpReceiver.step,Option.ite_none_right_eq_some,Option.some.injEq] at hs
    obtain ⟨hp,rfl⟩ := hs
    rw [hp] at hplace
    exact ⟨regular,hreg,hplace⟩
  | requestStop =>
    simp only [UdpReceiver.step] at hs
    split_ifs at hs
    · cases hs
      exact ⟨regular,hreg,hplace⟩
    · cases hs
      refine ⟨regular,hreg,?_⟩
      dsimp only
      cases hp : r.place with
      | returned d =>
        rw [hp] at hplace
        exact ⟨hplace.1,hplace.2.imp_right fun hd => ⟨hd.1,rfl,hd.2.2⟩⟩
      | stopped =>
        rw [hp] at hplace
        exact ⟨rfl,hplace.2⟩
      | _ =>
        rw [hp] at hplace
        exact hplace
  | write =>
    simp only [UdpReceiver.step,Option.ite_none_right_eq_some,Option.some.injEq] at hs
    obtain ⟨-,rfl⟩ := hs
    exact ⟨regular,hreg,hplace⟩
  | writeFails =>
    simp only [UdpReceiver.step,Option.ite_none_right_eq_some,Option.some.injEq] at hs
    obtain ⟨-,rfl⟩ := hs
    exact ⟨regular,hreg,hplace⟩
  | datagram d =>
    cases hs
    exact ⟨regular,hreg,hplace⟩
  | socketError =>
    cases hs
    exact ⟨regular,hreg,hplace⟩

end Step

section Run
variable {l : List ReceiverAction} {r : UdpReceiver}

theorem sound_of_run (h : follow step {} l=some r) : Sound r :=
  follow_invariant (fun hr hs => hr.step hs) .fresh h

theorem goneOn_of_run (h : follow step {} l=some r) : ∃ regular, GoneOn r regular := by
  have hboth := follow_invariant (P := fun r => Sound r ∧ ∃ regular, GoneOn r regular)
    (fun hr hs => ⟨hr.1.step hs,hr.2.elim fun _ hg => hg.step hr.1 hs⟩)
    ⟨.fresh,[],by simp,rfl,rfl⟩ h
  exact hboth.2

/-- Whatever is interleaved with the loop, it goes on with the datagrams of the network in order,
each once and none left out, and with nothing else; the empty buffer that a stop makes `receive`
return ends the loop and is never framed. -/
theorem receives_in_order (h : follow step {} l=some r) :
    ∃ regular : List Arrival, (∀ a∈regular, a.stopRequested=false) ∧
      r.arrived=r.taken++r.socket ∧
      (regular.map Arrival.datagram=r.taken.map (List.take maxDatagram) ∨
        ∃ d, regular.map Arrival.datagram++[d]=r.taken.map (List.take maxDatagram) ∧
          (r.place=.returned d ∨ d=[] ∧ r.place=.stopped)) ∧
      (r.place=.stopped → r.stopRequested=true) ∧
      ∀ listener l1 : Listener, listener.loop regular=.ok (l1,.waiting) →
        listener.loop r.handled=.ok (l1,if r.place=.stopped then .stopped else .waiting) := by
  obtain ⟨regular,hreg,hplace⟩ := goneOn_of_run h
  refine ⟨regular,hreg,(sound_of_run h).queue,?_⟩
  cases hp : r.place with
  | returned d =>
    rw [hp] at hplace
    obtain ⟨hhandled,hseen⟩ := hplace
    refine ⟨?_,nofun,fun listener l1 hl => by rw [hhandled]; exact hl⟩
    rcases hseen with hseen | ⟨-,-,hseen⟩
    · exact .inr ⟨d,hseen.symm,.inl rfl⟩
    · exact .inl hseen.symm
  | stopped =>
    rw [hp] at hplace
    obtain ⟨hstop,⟨ns,fails,hhandled⟩,hseen⟩ := hplace
    refine ⟨?_,fun _ => hstop,fun listener l1 hl => ?_⟩
    · rcases hseen with hseen | hseen
      · exact .inr ⟨[],hseen.symm,.inr ⟨rfl,rfl⟩⟩
      · exact .inl hseen.symm
    · rw [hhandled,Listener.loop_append hl]
      rfl
  | _ =>
    rw [hp] at hplace
    exact ⟨.inl hplace.2.symm,nofun,fun listener l1 hl => by rw [hplace.1]; exact hl⟩

/-- A datagram, then a stop while the loop waits and a second datagram is on its way. -/
theorem receives_in_order_stopped : ∃ r, follow step {} [.call,.test,.datagram [1],.poll,.decide,
      .recv,.loopTest 7 none,.call,.test,.requestStop,.datagram [2],.write,.poll,.decide,.loopTest 9 none]=
        some r ∧ r.place=.stopped ∧ r.handled=[⟨false,7,[1],none⟩,⟨true,9,[],none⟩] ∧ r.socket=[[2]] ∧
    ∃ regular : List Arrival, (∀ a∈regular, a.stopRequested=false) ∧ r.arrived=r.taken++r.socket := by
  have hrun : follow step {} [.call,.test,.datagram [1],.poll,.decide,.recv,.loopTest 7 none,.call,.test,
      .requestStop,.datagram [2],.write,.poll,.decide,.loopTest 9 none]=
        some ⟨true,1,[[2]],false,.stopped,0,0,[[1],[2]],[[1]],
          [⟨false,7,[1],none⟩,⟨true,9,[],none⟩]⟩ := by decide +kernel
  obtain ⟨regular,hreg,hq,-⟩ := receives_in_order hrun
  exact ⟨_,hrun,rfl,rfl,rfl,regular,hreg,hq⟩

/-- No step of the loop is enabled. -/
def Blocked (r : UdpReceiver) : Prop := ∀ a, own a=true → step r a=none

/-- The loop is over: stopped, or left by an exception. -/
def Over (r : UdpReceiver) : Prop := r.place=.stopped ∨ ∃ what, r.place=.threw what

theorem Over.blocked (h : Over r) : Blocked r := by
  intro a ha
  rcases h with h | ⟨what,h⟩
  · cases a <;> simp_all [own,step]
  · cases a <;> simp_all [own,step]

/-- `recv` always has something to return, so the loop can only wait in `poll`. -/
theorem blocked_cases (h : Sound r) (hb : Blocked r) : Over r ∨
    r.place=.polling ∧ r.socket=[] ∧ r.socketError=false ∧ r.wakePipe=0 := by
  cases hp : r.place with
  | loop =>
    have hcall := hb .call rfl
    simp [step,hp] at hcall
  | entered =>
    have htest := hb .test rfl
    simp [step,hp] at htest
  | polling =>
    have hpoll := hb .poll rfl
    simp only [step,hp,true_and,ite_eq_right_iff,reduceCtorEq,imp_false,not_or,
      Decidable.not_not,Bool.not_eq_true] at hpoll
    exact .inr ⟨rfl,hpoll.1,hpoll.2.1,by omega⟩
  | polled w =>
    have hdecide := hb .decide rfl
    simp [step,hp] at hdecide
  | receiving =>
    have hrecv := hb .recv rfl
    have hfails := hb .recvFails rfl
    have herror : r.socketError=false := by simpa [step,hp] using hfails
    obtain ⟨d,rest,hd⟩ := List.exists_cons_of_ne_nil
      ((h.readable (.inr hp)).resolve_right (by simp [herror]))
    simp [step,hp,herror,hd] at hrecv
  | returned d =>
    have htest := hb (.loopTest 0 none) rfl
    simp [step,hp] at htest
  | stopped => exact .inl (.inl hp)
  | threw what => exact .inl (.inr ⟨what,hp⟩)

/-- The loop waits exactly in `poll`, with nothing to read. It waits with the stop flag set only
while the call of `request_stop` that set it has not yet written to the wake pipe, or when that
write failed. -/
theorem blocked_iff (h : follow step {} l=some r) : Blocked r ↔ Over r ∨
    r.place=.polling ∧ r.socket=[] ∧ r.socketError=false ∧ r.wakePipe=0 ∧
      (r.stopRequested=true → r.writers+r.unwritten=1) := by
  have hsound := sound_of_run h
  constructor
  · intro hb
    refine (blocked_cases hsound hb).imp_right fun ⟨hp,hs,he,hw⟩ => ⟨hp,hs,he,hw,fun hstop => ?_⟩
    have hwake := hsound.wake
    rw [hstop,if_pos rfl] at hwake
    omega
  · rintro (ho | ⟨hp,hs,he,hw,-⟩)
    · exact ho.blocked
    · intro a ha
      cases a <;> simp_all [own,step]

/-- A stop between setting the flag and writing: the loop waits. -/
theorem blocked_iff_unwritten : ∃ r, follow step {} [.call,.test,.requestStop]=some r ∧
    r.stopRequested=true ∧ Blocked r := by
  have hrun : follow step {} [.call,.test,.requestStop]=
      some ⟨true,0,[],false,.polling,1,0,[],[],[]⟩ := by decide +kernel
  exact ⟨_,hrun,rfl,(blocked_iff hrun).mpr (.inr ⟨rfl,rfl,rfl,rfl,fun _ => rfl⟩)⟩

/-- The steps that the loop has left once the wake pipe can be read. -/
def stepsLeft (r : UdpReceiver) : Nat :=
  match r.place with
  | .stopped | .threw _ => 0
  | .returned d => if d=[] then 1 else 4
  | .entered | .polled _ => 2
  | .loop | .polling => 3
  | .receiving => 5

theorem stepsLeft_le (r : UdpReceiver) : r.stepsLeft≤5 := by
  unfold stepsLeft
  cases r.place with
  | returned d =>
    dsimp only
    split_ifs <;> omega
  | _ => simp

/-- A woken loop uses up its steps, whatever else happens. -/
theorem stepsLeft_step {r' : UdpReceiver} {a : ReceiverAction} (h : Sound r) (hw : 0<r.wakePipe)
    (hs : step r a=some r') :
    0<r'.wakePipe ∧ r'.stepsLeft+(if own a then 1 else 0)≤r.stepsLeft := by
  have hstop := h.stop_of_wake hw
  cases a with
  | call =>
    simp only [step,Option.ite_none_right_eq_some,Option.some.injEq] at hs
    obtain ⟨hp,rfl⟩ := hs
    exact ⟨hw,by simp [stepsLeft,own,hp]⟩
  | test =>
    simp only [step,Option.ite_none_right_eq_some,Option.some.injEq] at hs
    obtain ⟨hp,rfl⟩ := hs
    exact ⟨hw,by simp [stepsLeft,own,hp,hstop]⟩
  | poll =>
    simp only [step,Option.ite_none_right_eq_some,Option.some.injEq] at hs
    obtain ⟨⟨hp,-⟩,rfl⟩ := hs
    exact ⟨hw,by simp [stepsLeft,own,hp]⟩
  | decide =>
    simp only [step] at hs
    split at hs
    · rename_i w hp
      cases hs
      exact ⟨hw,by simp [stepsLeft,own,hp,hstop]⟩
    · cases hs
  | recv =>
    simp only [step] at hs
    split at hs
    · rename_i d rest hp he hd
      cases hs
      refine ⟨hw,?_⟩
      simp only [stepsLeft,own,hp,if_true]
      split_ifs <;> omega
    · cases hs
  | recvFails =>
    simp only [step,Option.ite_none_right_eq_some,Option.some.injEq] at hs
    obtain ⟨⟨hp,-⟩,rfl⟩ := hs
    exact ⟨hw,by simp [stepsLeft,own,hp,recvFailed,hstop]⟩
  | loopTest ns fails =>
    simp only [step] at hs
    split at hs
    · rename_i d hp
      cases hs
      refine ⟨hw,?_⟩
      simp only [stepsLeft,own,hp,hstop,Bool.and_true,if_true,List.isEmpty_iff]
      by_cases hd : d=[]
      · simp [hd]
      · simp [hd]
    · cases hs
  | interrupt =>
    simp only [step] at hs
    split at hs
    · rename_i hp
      cases hs
      exact ⟨hw,by simp [stepsLeft,own,hp]⟩
    · rename_i hp
      cases hs
      exact ⟨hw,by simp [stepsLeft,own,hp,recvFailed,hstop]⟩
    · cases hs
  | pollFails =>
    simp only [step,Option.ite_none_right_eq_some,Option.some.injEq] at hs
    obtain ⟨hp,rfl⟩ := hs
    exact ⟨hw,by simp [stepsLeft,own,hp]⟩
  | requestStop =>
    simp only [step,if_pos hstop] at hs
    cases hs
    exact ⟨hw,by simp [own]⟩
  | write =>
    simp only [step,Option.ite_none_right_eq_some,Option.some.injEq] at hs
    obtain ⟨-,rfl⟩ := hs
    exact ⟨Nat.succ_pos _,by simp [stepsLeft,own]⟩
  | writeFails =>
    simp only [step,Option.ite_none_right_eq_some,Option.some.injEq] at hs
    obtain ⟨-,rfl⟩ := hs
    exact ⟨hw,by simp [stepsLeft,own]⟩
  | datagram d =>
    cases hs
    exact ⟨hw,by simp [stepsLeft,own]⟩
  | socketError =>
    cases hs
    exact ⟨hw,by simp [stepsLeft,own]⟩

/-- Once a call of `request_stop` has written to the wake pipe, the loop takes at most five more
steps, and it is not kept from them before it is over. -/
theorem stop_ends_loop {after : List ReceiverAction} {r' : UdpReceiver}
    (h : follow step {} l=some r) (hw : 0<r.wakePipe) (h' : follow step r after=some r') :
    after.countP own≤5 ∧ r'.stopRequested=true ∧ (Blocked r' → Over r') := by
  have hboth := follow_invariant (P := fun r => Sound r ∧ 0<r.wakePipe)
    (fun hr hs => ⟨hr.1.step hs,(stepsLeft_step hr.1 hr.2 hs).1⟩) ⟨sound_of_run h,hw⟩ h'
  have hcount := follow_count (P := fun r => Sound r ∧ 0<r.wakePipe) own stepsLeft
    (fun hr hs => ⟨⟨hr.1.step hs,(stepsLeft_step hr.1 hr.2 hs).1⟩,(stepsLeft_step hr.1 hr.2 hs).2⟩)
    ⟨sound_of_run h,hw⟩ h'
  have hle := r.stepsLeft_le
  refine ⟨by omega,hboth.1.stop_of_wake hboth.2,fun hb => ?_⟩
  refine (blocked_cases hboth.1 hb).resolve_right fun hp => ?_
  have hpos := hboth.2
  omega

/-- A waiting loop is stopped. -/
theorem stop_ends_loop_waiting : ∃ r r', follow step {} [.call,.test,.requestStop,.write]=some r ∧
    follow step r [.poll,.decide,.loopTest 3 none]=some r' ∧
    [ReceiverAction.poll,.decide,.loopTest 3 none].countP own≤5 ∧ r'.stopRequested=true ∧
    (Blocked r' → Over r') := by
  have hrun : follow step {} [.call,.test,.requestStop,.write]=
      some ⟨true,1,[],false,.polling,0,0,[],[],[]⟩ := by decide +kernel
  have hafter : follow step ⟨true,1,[],false,.polling,0,0,[],[],[]⟩ [.poll,.decide,.loopTest 3 none]=
      some ⟨true,1,[],false,.stopped,0,0,[],[],[⟨true,3,[],none⟩]⟩ := by decide +kernel
  exact ⟨_,_,hrun,hafter,stop_ends_loop hrun (by decide) hafter⟩

end Run

end UdpReceiver
end MarketWire
