import MarketWire.LiveReplay
import MarketWire.ReplayModes

/-! After a session that failed, or whose process died. A datagram is captured before it is looked
at, so the file holds the one that made the live command throw, and replaying it throws the same,
unless what failed was the sending of a rerequest. -/
namespace MarketWire
open Library MoldUdp64

namespace Listener

/-- The capture as it stands when the loop is over, however it came to that. -/
def captured (l : Listener) : List Arrival → Option CaptureWriter
  | [] => l.capture
  | a::rest =>
    if a.datagram=[] ∧ a.stopRequested then l.capture
    else
      match l.record a with
      | .error _ => l.capture
      | .ok capture =>
        match l.receive a with
        | .error _ => capture
        | .ok (l,r) => if r.endOfSession then l.capture else l.captured rest

end Listener

namespace Pipeline
variable {b b' : OrderBook} {L L' : Ledger} {ready : List MoldMessage} {x : Abort}

/-- A message fails only by what it carries, whatever the book. -/
theorem handle_error {m : MoldMessage} (h : Rep b L) (he : handle b m=.error x) (b' : OrderBook) :
    handle b' m=.error x := by
  cases hd : ItchDecoder.decodeBookEvent m.payload with
  | error e =>
    rw [handle,hd] at he ⊢
    exact he
  | ok event =>
    rw [handle_eq h (by rw [hd]; rfl)] at he
    cases he

theorem foldlM_handle_error (h : Rep b L) (h' : Rep b' L')
    (he : ready.foldlM handle b=.error x) : ready.foldlM handle b'=.error x := by
  induction ready generalizing b L b' L' with
  | nil => cases he
  | cons m rest ih =>
    rw [List.foldlM_cons] at he ⊢
    cases hm : handle b m with
    | error y =>
      rw [hm] at he
      rw [handle_error h hm b']
      exact he
    | ok b1 =>
      rw [hm] at he
      obtain ⟨hd,rfl⟩ := handle_inv hm
      rw [handle_eq h' hd]
      exact ih (h.run _) (h'.run _) he

/-- A datagram that one pipeline fails on fails the same with any other book. -/
theorem processPacket_error {e : RecoveryEngine} {d : Bytes} (h : Rep b L) (h' : Rep b' L')
    (he : processPacket ⟨e,b⟩ d=.error x) : processPacket ⟨e,b'⟩ d=.error x := by
  obtain hi | ⟨⟨e1,r⟩,hi,he⟩ := bind_eq_error.mp he
  · exact bind_eq_error.mpr (.inl hi)
  obtain hf | ⟨book,-,hp⟩ := bind_eq_error.mp he
  · exact bind_eq_error.mpr
      (.inr ⟨_,hi,bind_eq_error.mpr (.inl (foldlM_handle_error h h' hf))⟩)
  · cases hp

theorem ingest_inv {s : Pipeline} {d : Bytes} {recovery : RecoveryEngine} {r : Result}
    (h : s.ingest d=.ok (recovery,r)) :
    ∃ p, parseDownstream d=.ok p ∧ s.recovery.ingest p=(recovery,.ok r) := by
  unfold ingest at h
  cases hp : parseDownstream d with
  | error e =>
    rw [hp] at h
    cases h
  | ok p =>
    rw [hp] at h
    cases hi : s.recovery.ingest p with
    | mk recovery' out =>
      cases out with
      | error fault =>
        simp only [hi] at h
        cases h
      | ok r' =>
        simp only [hi] at h
        cases h
        exact ⟨p,rfl,hi⟩

theorem run_split {s s' : Pipeline} {ds ds' : List Bytes} (h : s.run (ds++ds')=.ok s') :
    ∃ s1, s.run ds=.ok s1 ∧ s1.run ds'=.ok s' := by
  induction ds generalizing s with
  | nil => exact ⟨s,rfl,h⟩
  | cons d rest ih =>
    obtain ⟨⟨s1,r⟩,h1,h2⟩ := bind_eq_ok.mp h
    obtain ⟨s2,h3,h4⟩ := ih h2
    exact ⟨s2,bind_eq_ok.mpr ⟨_,h1,h3⟩,h4⟩

end Pipeline

namespace Listener
variable {l l' : Listener} {a : Arrival} {r : Result} {recovery : RecoveryEngine}
  {arrivals : List Arrival} {x : Abort}

theorem ingest_valid {s : Pipeline} {d : Bytes} (h : s.ingest d=.ok (recovery,r)) :
    RecoveryEngine.ValidCount r.request := by
  obtain ⟨p,-,hi⟩ := Pipeline.ingest_inv h
  exact (RecoveryEngine.ingest_result hi).1

/-- An exception of `send_unicast`, for a rerequest that an arrival calls for. -/
def Unsent (s : Pipeline) (a : Arrival) (x : Abort) : Prop :=
  ∃ what, a.sendFails=some what ∧ x=.threw (.runtimeError what) ∧
    ∃ recovery r q, s.ingest a.datagram=.ok (recovery,r) ∧ r.request=some q

/-- A datagram that can be captured fails in the pipeline, if its rerequest can be sent. -/
theorem receive_error (hs : a.datagram.length≤kMaxCaptureDatagramSize)
    (h : l.receive a=.error x) :
    l.pipeline.processPacket a.datagram=.error x ∨ Unsent l.pipeline a x := by
  obtain hc | ⟨capture,-,h⟩ := bind_eq_error.mp h
  · obtain ⟨capture,hok⟩ := l.record_ok hs
    cases hok.symm.trans hc
  obtain hi | ⟨⟨recovery,r⟩,hi,h⟩ := bind_eq_error.mp h
  · exact .inl (bind_eq_error.mpr (.inl hi))
  obtain hq | ⟨sent,-,h⟩ := bind_eq_error.mp h
  · obtain ⟨what,q,hfails,hx,hask⟩ := rerequest_error (ingest_valid hi) hq
    exact .inr ⟨what,hfails,hx,recovery,r,q,hi,hask⟩
  obtain hf | ⟨book,-,hp⟩ := bind_eq_error.mp h
  · exact .inl (bind_eq_error.mpr (.inr ⟨_,hi,bind_eq_error.mpr (.inl hf)⟩))
  · cases hp

/-- A loop that fails was waiting when the datagram came that it fails on. -/
theorem loop_error (h : l.loop arrivals=.error x) : ∃ taken a rest l1,
    arrivals=taken++a::rest ∧ l.loop taken=.ok (l1,.waiting) ∧
      ¬(a.datagram=[] ∧ a.stopRequested) ∧ l1.receive a=.error x := by
  induction arrivals generalizing l with
  | nil => cases h
  | cons a rest ih =>
    by_cases hs : a.datagram=[] ∧ a.stopRequested
    · rw [loop,if_pos hs] at h
      cases h
    cases hr : l.receive a with
    | error y =>
      rw [loop,if_neg hs,hr] at h
      cases h
      exact ⟨[],a,rest,l,rfl,rfl,hs,hr⟩
    | ok out =>
      obtain ⟨l1,r⟩ := out
      cases he : r.endOfSession with
      | true =>
        rw [loop_ends hs hr he] at h
        cases h
      | false =>
        rw [loop_next hs hr he] at h
        obtain ⟨taken,a',more,l2,rfl,hl,hs',hf⟩ := ih h
        exact ⟨a::taken,a',more,l2,rfl,(loop_next hs hr he).trans hl,hs',hf⟩

theorem captured_append {l1 : Listener} {rest : List Arrival}
    (h : l.loop arrivals=.ok (l1,.waiting)) : l.captured (arrivals++rest)=l1.captured rest := by
  induction arrivals generalizing l with
  | nil =>
    cases h
    rfl
  | cons a more ih =>
    obtain hout | ⟨l2,r,hs,hr,⟨-,-,hout⟩ | ⟨he,h⟩⟩ := loop_cases h
    · cases hout
    · cases hout
    obtain ⟨-,ht⟩ := receive_inv hr
    obtain ⟨capture,hc,-⟩ := bind_eq_ok.mp hr
    rw [List.cons_append,captured,if_neg hs,hc]
    dsimp only
    rw [hr]
    dsimp only
    rw [he,if_neg Bool.false_ne_true]
    exact ih h

/-- The datagram that the loop fails on is the last one of the capture. -/
theorem captured_error {w : CaptureWriter} {rest : List Arrival} (hc : l.capture=some w)
    (hs : ¬(a.datagram=[] ∧ a.stopRequested)) (hsize : a.datagram.length≤kMaxCaptureDatagramSize)
    (h : l.receive a=.error x) :
    l.captured (a::rest)=some ⟨w.out++CaptureRecord.encode a.record⟩ := by
  have hrec : l.record a=.ok (some ⟨w.out++CaptureRecord.encode a.record⟩) := by
    rw [record,hc]
    dsimp only
    rw [w.write_eq hsize]
    rfl
  rw [captured,if_neg hs,hrec]
  dsimp only
  rw [h]

/-- What a loop has taken when it is over. -/
theorem loop_took {out : ListenEnd} (h : l.loop arrivals=.ok (l',out)) :
    ∃ taken rest, arrivals=taken++rest ∧ Took l taken l' := by
  induction arrivals generalizing l with
  | nil =>
    cases h
    exact ⟨[],[],rfl,.refl _⟩
  | cons a rest ih =>
    by_cases hs : a.datagram=[] ∧ a.stopRequested
    · rw [loop,if_pos hs] at h
      cases h
      exact ⟨[],a::rest,rfl,.refl _⟩
    obtain ⟨⟨l1,r⟩,hr,-⟩ := bind_eq_ok.mp (by rw [loop,if_neg hs] at h; exact h)
    obtain ⟨-,ht⟩ := receive_inv hr
    cases he : r.endOfSession with
    | true =>
      rw [loop_ends hs hr he] at h
      cases h
      exact ⟨[a],rest,rfl,ht⟩
    | false =>
      rw [loop_next hs hr he] at h
      obtain ⟨taken,more,rfl,ht'⟩ := ih h
      exact ⟨a::taken,more,rfl,ht.trans ht'⟩

end Listener

namespace ReplayEngine
variable {σ : Type} {cb : σ → CaptureRecord → Except Abort σ} {records : List CaptureRecord}
  {r : CaptureRecord} {s s' : σ} {x : Abort}

/-- The callback that fails ends the replay; the ones before it were made. -/
theorem loopRecords_fails {prev : Option UInt64} {count : Nat} {io : Console}
    {rest : List CaptureRecord} (htime : InTime prev (records++[r]))
    (h : records.foldlM cb s=.ok s') (hx : cb s' r=.error x) :
    loopRecords (.ofMode .maxSpeed) cb none (records++r::rest) prev count io s=
      ⟨s',io,.error x⟩ := by
  induction records generalizing prev count s with
  | nil =>
    cases h
    rw [List.nil_append,loopRecords,Pause.maxSpeed_ok htime.1]
    dsimp only
    rw [hx]
  | cons r1 more ih =>
    obtain ⟨s1,h1,h2⟩ := bind_eq_ok.mp h
    rw [List.cons_append,loopRecords_cons (Pause.maxSpeed_ok htime.1 io) h1]
    exact ih htime.2 h2

/-- What can be read is replayed before the exception that ended the reading. -/
theorem loopRecords_read {prev : Option UInt64} {count : Nat} {io : Console}
    {last : Option Thrown} (htime : InTime prev records) (h : records.foldlM cb s=.ok s') :
    loopRecords (.ofMode .maxSpeed) cb last records prev count io s=
      ⟨s',io,match last with
        | none => .ok (count+records.length)
        | some e => .error (.threw e)⟩ := by
  induction records generalizing prev count s with
  | nil =>
    cases h
    cases last <;> rfl
  | cons r rest ih =>
    obtain ⟨s1,h1,h2⟩ := bind_eq_ok.mp h
    rw [loopRecords_cons (Pause.maxSpeed_ok htime.1 io) h1,ih htime.2 h2,List.length_cons,
      Nat.add_assoc,Nat.add_comm 1]

end ReplayEngine

/-- When the live command fails on a datagram, the capture that it leaves behind ends with that
datagram, and replaying it fails in the same way, whatever the size of its book, unless a rerequest
could not be sent. -/
theorem replay_of_failed {n n' : Nat} {b' : OrderBook} {arrivals : List Arrival} {x : Abort}
    {b : OrderBook} (hb : OrderBook.create n=.ok b) (hb' : OrderBook.create n'=.ok b')
    (h : listenWith n true arrivals=.error x)
    (hsize : ∀ a∈arrivals, a.datagram.length≤kMaxCaptureDatagramSize)
    (htime : (arrivals.map Arrival.ns).Pairwise fun a b => a≤b) (io : Console) :
    ∃ taken a rest file, arrivals=taken++a::rest ∧
      Listener.captured ⟨⟨{ expected := 1 },b⟩,some CaptureWriter.create,[]⟩ arrivals=some file ∧
      file.out=captureFile ((taken++[a]).map Arrival.record) ∧
      (replayWith n' .maxSpeed file.out io=.error x ∨
        ∃ s, Pipeline.run ⟨{ expected := 1 },b⟩ (taken.map Arrival.datagram)=.ok s ∧
          Listener.Unsent s a x) := by
  rw [listenWith,hb] at h
  obtain ⟨taken,a,rest,l,rfl,hl,hs,hr⟩ := Listener.loop_error h
  have ht := Listener.loop_waiting hl
  obtain ⟨hfits,hcap⟩ := ht.capture CaptureWriter.create rfl
  have ha := hsize a (by simp)
  have hfile : CaptureWriter.create.out++(taken.map Arrival.record).flatMap CaptureRecord.encode++
      CaptureRecord.encode a.record=captureFile ((taken++[a]).map Arrival.record) := by
    simp [captureFile,CaptureWriter.create]
  refine ⟨taken,a,rest,_,rfl,?_,hfile,?_⟩
  · rw [← Listener.captured_error hcap hs ha hr]
    exact Listener.captured_append hl
  refine (Listener.receive_error ha hr).imp (fun hx => ?_) fun hx => ⟨_,ht.run,hx⟩
  dsimp only
  rw [hfile]
  -- the replay takes what the live command took, and fails where it failed
  obtain ⟨hbook,hrun⟩ := run_other hb' ht.run
  have hrep := (OrderBook.create_rep hb).run (eventsOf (taken.map Arrival.datagram))
  rw [← hbook] at hrep
  have hx' := Pipeline.processPacket_error hrep
    ((OrderBook.create_rep hb').run (eventsOf (taken.map Arrival.datagram))) hx
  have hds : (taken.map Arrival.record).map CaptureRecord.datagram=taken.map Arrival.datagram := by
    rw [List.map_map]
    rfl
  rw [← hds] at hrun hx'
  obtain ⟨messages,hf⟩ := foldlM_replayRecord (n := 0) hrun
  have horder : ReplayEngine.InTime none (taken.map Arrival.record++[a.record]) := by
    refine ReplayEngine.inTime_none.mpr (List.Pairwise.isChain ?_)
    have hsub : (taken++[a]).Sublist (taken++a::rest) := by simp
    have hns : (taken.map Arrival.record++[a.record]).map CaptureRecord.monotonicNs=
        (taken++[a]).map Arrival.ns := by simp [Arrival.record,Function.comp_def]
    rw [hns]
    exact htime.sublist (hsub.map Arrival.ns)
  have hall : Fits ((taken++[a]).map Arrival.record) := by
    rw [List.map_append]
    exact List.forall_mem_append.mpr ⟨List.forall_mem_map.mpr hfits,List.forall_mem_singleton.mpr ha⟩
  rw [replayWith,hb']
  dsimp only
  rw [ReplayEngine.run,ReplayEngine.runWith_captureFile _ replayRecord hall,List.map_append,
    List.map_singleton,ReplayEngine.loopRecords_fails horder hf (bind_eq_error.mpr (.inl hx'))]

/-- The demo's packets, and behind them a datagram that is too short. -/
def demoBroken : List Arrival :=
  (Pipeline.demoPackets++[[1,2,3]]).map fun d => { ns := 0, datagram := d }

theorem replay_of_failed_demo : ∃ b file, OrderBook.create 8=.ok b ∧
    listenWith 8 true demoBroken=.error (.threw truncated) ∧
    Listener.captured ⟨⟨{ expected := 1 },b⟩,some CaptureWriter.create,[]⟩ demoBroken=some file ∧
    replayWith 4 .maxSpeed file.out {}=.error (.threw truncated) := by
  obtain ⟨b,hb⟩ := OrderBook.create_isOk (n := 8) (by decide) (by decide)
  obtain ⟨b',hb'⟩ := OrderBook.create_isOk (n := 4) (by decide) (by decide)
  have hfails : listenWith 8 true demoBroken=.error (.threw truncated) := by decide +kernel
  obtain ⟨taken,a,rest,file,hsplit,hcap,-,hx⟩ :=
    replay_of_failed hb hb' hfails (by decide +kernel) (by decide +kernel) {}
  refine ⟨b,file,hb,hfails,hcap,hx.resolve_right ?_⟩
  rintro ⟨_,-,what,hsend,-⟩
  have hsends : ∀ a∈demoBroken, a.sendFails=none := by decide +kernel
  rw [hsends a (by simp [hsplit])] at hsend
  cases hsend

/-- A capture that was cut short, between records or within one, replays the datagrams whose
records are whole: the replay ends normally when the cut is between records and throws otherwise. -/
theorem replay_of_cut {n n' : Nat} {b' : OrderBook} {arrivals : List Arrival} {l : Listener}
    {out : ListenEnd} {w : CaptureWriter} {file : Bytes} (hb' : OrderBook.create n'=.ok b')
    (h : listenWith n true arrivals=.ok (l,out)) (hw : l.capture=some w) (hcut : file<+:w.out)
    (hlen : 4≤file.length) (htime : (arrivals.map Arrival.ns).Pairwise fun a b => a≤b)
    (io : Console) :
    ∃ taken rest s, arrivals=taken++rest ∧ captureFile (taken.map Arrival.record)<+:file ∧
      Decodable file (taken.map Arrival.record) ∧
      Pipeline.run ⟨{ expected := 1 },b'⟩ (taken.map Arrival.datagram)=.ok s ∧
      (ReplayEngine.run .maxSpeed replayRecord file io (⟨{ expected := 1 },b'⟩,0)).state.1=s ∧
      if file=captureFile (taken.map Arrival.record) then
        (ReplayEngine.run .maxSpeed replayRecord file io (⟨{ expected := 1 },b'⟩,0)).outcome=
          .ok taken.length
      else ∃ e, (ReplayEngine.run .maxSpeed replayRecord file io
        (⟨{ expected := 1 },b'⟩,0)).outcome=.error (.threw e) := by
  obtain ⟨b,hb,hloop⟩ := listenWith_ok h
  obtain ⟨all,unseen,rfl,ht⟩ := Listener.loop_took hloop
  obtain ⟨hfits,hcap⟩ := ht.capture CaptureWriter.create rfl
  have hout : w.out=captureFile (all.map Arrival.record) := by
    rw [hw] at hcap
    rw [Option.some.inj hcap]
    rfl
  rw [hout] at hcut
  have hall : Fits (all.map Arrival.record) := List.forall_mem_map.mpr hfits
  -- the records that are read are those of a beginning of the session
  have hdec := CaptureReader.decodable_readFile file
  obtain ⟨more,hmore⟩ := CaptureReader.readFile_prefix hall hcut
  obtain ⟨taken,rest,rfl,htaken,-⟩ := List.map_eq_append_iff.mp hmore.symm
  rw [← htaken] at hdec
  obtain ⟨-,hrun⟩ := run_other hb' ht.run
  rw [List.map_append] at hrun
  obtain ⟨s,hs,-⟩ := Pipeline.run_split hrun
  refine ⟨taken,rest++unseen,s,by simp,?_,hdec,hs,?_⟩
  · -- the magic is there even if no record is whole
    refine hdec.begins.elim (fun hnil => ?_) id
    rw [hnil]
    have hmagic : captureFile []<+:captureFile ((taken++rest).map Arrival.record) :=
      (List.prefix_append_right_inj _).mpr List.nil_prefix
    exact List.prefix_of_prefix_length_le hmagic hcut hlen
  have hds : (taken.map Arrival.record).map CaptureRecord.datagram=taken.map Arrival.datagram := by
    rw [List.map_map]
    rfl
  rw [← hds] at hs
  obtain ⟨messages,hf⟩ := foldlM_replayRecord (n := 0) hs
  have horder : ReplayEngine.InTime none (taken.map Arrival.record) := by
    refine ReplayEngine.inTime_none.mpr (List.Pairwise.isChain ?_)
    have hns : (taken.map Arrival.record).map CaptureRecord.monotonicNs=taken.map Arrival.ns := by
      rw [List.map_map]
      rfl
    rw [hns]
    exact htime.sublist (List.Sublist.map _ (by simp))
  rw [ReplayEngine.run,ReplayEngine.runWith_eq_loopRecords,← htaken,
    ReplayEngine.loopRecords_read horder hf]
  refine ⟨rfl,?_⟩
  cases he : (CaptureReader.readFile file).2 with
  | none =>
    rw [if_pos (CaptureReader.readFile_iff.mp (Prod.ext htaken.symm he)).1]
    simp
  | some e =>
    rw [if_neg fun hfile => ?_]
    · exact ⟨e,rfl⟩
    · rw [CaptureReader.readFile_iff.mpr ⟨hfile,hdec.fits⟩] at he
      cases he

/-- The demo's capture, cut in its second record: the first datagram is replayed. -/
theorem replay_of_cut_demo : ∃ b l w s, OrderBook.create 4=.ok b ∧
    listenWith 8 true (demoBroken.take 3)=.ok (l,.waiting) ∧ l.capture=some w ∧
    Pipeline.run ⟨{ expected := 1 },b⟩ (Pipeline.demoPackets.take 1)=.ok s ∧
    (ReplayEngine.run .maxSpeed replayRecord (w.out.take 100) {}
      (⟨{ expected := 1 },b⟩,0)).state.1=s ∧
    ∃ e, (ReplayEngine.run .maxSpeed replayRecord (w.out.take 100) {}
      (⟨{ expected := 1 },b⟩,0)).outcome=.error (.threw e) := by
  let records := demoBroken.map Arrival.record
  let r : CaptureRecord := ⟨0,moldPacket (text "DEMO") 3 [cancelMsg 10 25]⟩
  have hrun : (listenWith 8 true (demoBroken.take 3)).map
      (fun o => (o.2,o.1.capture.map fun w => w.out.take 100))=
        .ok (.waiting,some (captureFile (records.take 1)++r.encode.take 26)) := by decide +kernel
  obtain ⟨⟨l,out⟩,hl,he⟩ := map_eq_ok.mp hrun
  obtain ⟨rfl,hw⟩ := Prod.mk.inj he
  obtain ⟨w,hw,hfile⟩ := Option.map_eq_some_iff.mp hw
  obtain ⟨b,hb⟩ := OrderBook.create_isOk (n := 4) (by decide) (by decide)
  obtain ⟨taken,rest,s,hsplit,-,hdec,hs,hstate,hout⟩ := replay_of_cut hb hl hw
    (List.take_prefix 100 w.out) (by rw [hfile]; decide +kernel) (by decide +kernel) {}
  have hfits : Fits (records.take 1++[r]) := by
    unfold Fits
    decide +kernel
  have htaken : taken.map Arrival.record=records.take 1 :=
    hdec.unique (hfile ▸ .of_cut hfits (List.take_prefix _ _) (by decide +kernel))
  have hds : taken.map Arrival.datagram=Pipeline.demoPackets.take 1 := by
    have hmap := congrArg (List.map CaptureRecord.datagram) htaken
    rw [List.map_map] at hmap
    exact hmap.trans (by decide +kernel)
  rw [htaken,if_neg (by rw [hfile]; decide +kernel)] at hout
  exact ⟨b,l,w,s,hb,hl,hw,hds ▸ hs,hstate,hout⟩

end MarketWire
