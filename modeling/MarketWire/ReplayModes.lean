import MarketWire.Replay

/-! What a replay does in each of its modes: which records it hands to the callback, what it asks
of the input, and how long it sleeps. -/
namespace MarketWire
open Library

namespace ReplayEngine
/-- Out of order there is an exception, whatever the mode. -/
theorem delay_error (mode : ReplayMode) {prev : Option UInt64} {ns : UInt64} (io : Console)
    (h : ¬∀ p∈prev, p≤ns) :
    delay mode prev ns io=.error (.runtimeError "capture timestamps are not monotonic") := by
  cases prev with
  | none => exact absurd (by simp) h
  | some p =>
    have hp : ns<p := UInt64.not_le.mp fun hle => h fun q hq => by
      cases hq
      exact hle
    simp only [delay,if_pos hp]

theorem Pause.ofMode_late (mode : ReplayMode) {prev : Option UInt64} {ns : UInt64} (io : Console)
    (h : ¬∀ p∈prev, p≤ns) : Pause.ofMode mode prev ns io=
      .error (.runtimeError "capture timestamps are not monotonic") :=
  bind_eq_error.mpr (.inl (delay_error mode io h))

/-- A callback that keeps what it is given. -/
def logged (log : List CaptureRecord) (r : CaptureRecord) : Except Abort (List CaptureRecord) :=
  .ok (log++[r])

theorem foldl_logged (records log : List CaptureRecord) :
    records.foldl (fun log r => log++[r]) log=log++records := by
  induction records generalizing log with
  | nil => rw [List.foldl_nil,List.append_nil]
  | cons r rest ih => rw [List.foldl_cons,ih,List.append_assoc,List.singleton_append]

section MaxSpeed
variable {σ : Type}

/-- A timestamp is not before an earlier one. -/
def follows (prev : Option UInt64) (ns : UInt64) : Bool :=
  match prev with
  | none => true
  | some p => p≤ns

theorem follows_iff {prev : Option UInt64} {ns : UInt64} : follows prev ns ↔ ∀ p∈prev, p≤ns := by
  cases prev <;> simp [follows]

/-- The records before the first one that is out of time. -/
def inTime (prev : Option UInt64) : List CaptureRecord → List CaptureRecord
  | [] => []
  | r::rest =>
    if follows prev r.monotonicNs then r::inTime (some r.monotonicNs) rest else []

theorem inTime_begins (prev : Option UInt64) (records : List CaptureRecord) :
    inTime prev records<+:records := by
  induction records generalizing prev with
  | nil => exact List.nil_prefix
  | cons r rest ih =>
    rw [inTime]
    split_ifs with h
    · exact (List.prefix_cons_inj r).mpr (ih _)
    · exact List.nil_prefix

theorem inTime_inTime (prev : Option UInt64) (records : List CaptureRecord) :
    InTime prev (inTime prev records) := by
  induction records generalizing prev with
  | nil => trivial
  | cons r rest ih =>
    rw [inTime]
    split_ifs with h
    · exact ⟨follows_iff.mp h,ih _⟩
    · trivial

theorem prefix_inTime {prev : Option UInt64} {records l : List CaptureRecord} (hl : l<+:records)
    (h : InTime prev l) : l<+:inTime prev records := by
  induction records generalizing prev l with
  | nil => exact hl
  | cons r rest ih =>
    cases l with
    | nil => exact List.nil_prefix
    | cons r' l =>
      obtain ⟨rfl,hrest⟩ := List.cons_prefix_cons.mp hl
      rw [inTime,if_pos (follows_iff.mpr h.1)]
      exact (List.prefix_cons_inj r').mpr (ih hrest h.2)

theorem inTime_eq {prev : Option UInt64} {records : List CaptureRecord} (h : InTime prev records) :
    inTime prev records=records :=
  ((inTime_begins prev records).eq_of_length_le (prefix_inTime List.prefix_rfl h).length_le)

/-- At maximum speed the callbacks are made up to the first record that is out of time. -/
theorem loopRecords_maxSpeed (f : σ → CaptureRecord → σ) (last : Option Thrown)
    (records : List CaptureRecord) (prev : Option UInt64) (count : Nat) (io : Console) (s : σ) :
    loopRecords (.ofMode .maxSpeed) (fun s r => .ok (f s r)) last records prev count io s=
      ⟨(inTime prev records).foldl f s,io,
        if inTime prev records=records then
          match last with
          | none => .ok (count+records.length)
          | some e => .error (.threw e)
        else .error (.threw (.runtimeError "capture timestamps are not monotonic"))⟩ := by
  induction records generalizing prev count s with
  | nil => cases last <;> rfl
  | cons r rest ih =>
    rw [inTime]
    split_ifs with h heq heq
    · rw [loopRecords_cons (Pause.maxSpeed_ok (follows_iff.mp h) io) rfl,ih,
        if_pos (List.cons.inj heq).2]
      cases last with
      | none => simp [Nat.add_assoc,Nat.add_comm 1]
      | some e => rfl
    · rw [loopRecords_cons (Pause.maxSpeed_ok (follows_iff.mp h) io) rfl,ih,
        if_neg fun he => heq (by rw [he])]
      rfl
    · cases heq
    · rw [loopRecords,Pause.ofMode_late .maxSpeed io (mt follows_iff.mpr h)]
      rfl

/-- The longest beginning of some records that is in time order. -/
structure LongestOrdered (called records : List CaptureRecord) : Prop where
  begins : called<+:records
  ordered : Ordered called
  longest : ∀ l, l<+:records → Ordered l → l<+:called

theorem longestOrdered_inTime (records : List CaptureRecord) :
    LongestOrdered (inTime none records) records where
  begins := inTime_begins none records
  ordered := inTime_none.mp (inTime_inTime none records)
  longest _ hl h := prefix_inTime hl (inTime_none.mpr h)

theorem LongestOrdered.unique {called called' records : List CaptureRecord}
    (h : LongestOrdered called records) (h' : LongestOrdered called' records) : called=called' :=
  (h'.longest called h.begins h.ordered).eq_of_length_le
    (h.longest called' h'.begins h'.ordered).length_le

open CaptureReader in
/-- At maximum speed a callback that does not throw gets the longest beginning of the whole
records that is in time order; the replay returns their number if they are all that is in the
file, and otherwise throws after them. -/
theorem maxSpeed_replays (f : σ → CaptureRecord → σ) (file : Bytes) (io : Console) (s : σ) :
    ∃ records called, Decodable file records ∧ LongestOrdered called records ∧
      (run .maxSpeed (fun s r => .ok (f s r)) file io s).state=called.foldl f s ∧
      if file=captureFile called
        then (run .maxSpeed (fun s r => .ok (f s r)) file io s).outcome=.ok called.length
        else ∃ e, (run .maxSpeed (fun s r => .ok (f s r)) file io s).outcome=.error (.threw e) := by
  have hdec := decodable_readFile file
  refine ⟨_,_,hdec,longestOrdered_inTime _,?_⟩
  rw [run,runWith_eq_loopRecords,loopRecords_maxSpeed]
  refine ⟨rfl,?_⟩
  have hfits : Fits (inTime none (readFile file).1) := fun r hr =>
    hdec.fits r ((inTime_begins none _).subset hr)
  have hwhole : file=captureFile (inTime none (readFile file).1) ↔
      readFile file=(inTime none (readFile file).1,none) := by
    rw [readFile_iff]
    exact (and_iff_left hfits).symm
  rw [if_congr hwhole rfl rfl]
  obtain ⟨records,last⟩ := readFile file
  dsimp only
  by_cases heq : inTime none records=records
  · rw [if_pos heq,heq]
    cases last with
    | none =>
      rw [if_pos rfl,Nat.zero_add]
    | some e =>
      rw [if_neg (by simp)]
      exact ⟨e,rfl⟩
  · rw [if_neg heq,if_neg fun he => heq (Prod.mk.inj he).1.symm]
    exact ⟨_,rfl⟩

/-- A file that ends within a record, and one whose last record is out of time. -/
theorem maxSpeed_replays_two :
    let file := captureFile [⟨5,[1,2]⟩,⟨9,[]⟩]++(CaptureRecord.encode ⟨9,[3]⟩).take 11
    let file' := captureFile [⟨5,[1,2]⟩,⟨9,[]⟩,⟨6,[3]⟩]
    (run .maxSpeed logged file {} []).state=[⟨5,[1,2]⟩,⟨9,[]⟩] ∧
      (∃ e, (run .maxSpeed logged file {} []).outcome=.error (.threw e)) ∧
      (run .maxSpeed logged file' {} []).state=[⟨5,[1,2]⟩,⟨9,[]⟩] ∧
      ∃ e, (run .maxSpeed logged file' {} []).outcome=.error (.threw e) := by
  have hfits : Fits [⟨5,[1,2]⟩,⟨9,[]⟩,⟨9,[3]⟩] := by simp [Fits]
  have hfits' : Fits [⟨5,[1,2]⟩,⟨9,[]⟩,⟨6,[3]⟩] := by simp [Fits]
  obtain ⟨_,_,hdec,hlong,hstate,hout⟩ := maxSpeed_replays (fun log r => log++[r])
    (captureFile [⟨5,[1,2]⟩,⟨9,[]⟩]++(CaptureRecord.encode ⟨9,[3]⟩).take 11) {} []
  obtain rfl := hdec.unique (.of_cut hfits (List.take_prefix _ _) (by decide +kernel))
  obtain rfl := hlong.unique (longestOrdered_inTime _)
  obtain ⟨_,_,hdec',hlong',hstate',hout'⟩ := maxSpeed_replays (fun log r => log++[r])
    (captureFile [⟨5,[1,2]⟩,⟨9,[]⟩,⟨6,[3]⟩]) {} []
  obtain rfl := hdec'.unique (.of_fits hfits')
  obtain rfl := hlong'.unique (longestOrdered_inTime _)
  rw [if_neg (by decide +kernel)] at hout hout'
  exact ⟨hstate,hout,hstate',hout'⟩

end MaxSpeed

section Step
variable {σ : Type} {records : List CaptureRecord} {prev : Option UInt64} {io : Console}

/-- A character other than NUL is consumed; at the end of the input there is none to consume. -/
theorem prompt_step (h : io.input.head?≠some 0) :
    prompt .step io=.ok { io with input := io.input.tail } := by
  obtain ⟨input,slept⟩ := io
  cases input with
  | nil => rfl
  | cons c rest =>
    have hc : c≠0 := by simpa using h
    rw [prompt,if_pos rfl]
    dsimp only
    rw [if_neg hc]
    rfl

theorem prompt_nul (h : io.input.head?=some 0) :
    prompt .step io=.error (.runtimeError "step replay input ended") := by
  obtain ⟨rest,hrest⟩ := List.head?_eq_some_iff.mp h
  rw [prompt,if_pos rfl,hrest]
  rfl

/-- Without a NUL among the characters it asks for, the loop goes through every record. -/
theorem loopRecords_step (f : σ → CaptureRecord → σ) (h : InTime prev records)
    (hn : 0∉io.input.take records.length) (count : Nat) (s : σ) :
    loopRecords (.ofMode .step) (fun s r => .ok (f s r)) none records prev count io s=
      ⟨records.foldl f s,{ io with input := io.input.drop records.length },
        .ok (count+records.length)⟩ := by
  induction records generalizing prev io count s with
  | nil => rfl
  | cons r rest ih =>
    have hhead : io.input.head?≠some 0 := fun he => hn (by
      obtain ⟨t,ht⟩ := List.head?_eq_some_iff.mp he
      simp [ht])
    have htail : 0∉io.input.tail.take rest.length := fun hm => hn (by
      cases hi : io.input with
      | nil => simp [hi] at hm
      | cons c t =>
        rw [hi] at hm
        exact List.mem_cons_of_mem c hm)
    rw [loopRecords_cons (Pause.ofMode_ok (delay_of_ne (by simp) h.1) (prompt_step hhead)) rfl,
      ih h.2 htail]
    simp [Nat.add_assoc,Nat.add_comm 1]

/-- At a NUL the loop stops before the record. -/
theorem loopRecords_nul (f : σ → CaptureRecord → σ) (io : Console) (h : InTime prev records)
    (hn : 0∈io.input.take records.length) (count : Nat) (s : σ) :
    ∃ k < min records.length io.input.length, ∃ io',
      loopRecords (.ofMode .step) (fun s r => .ok (f s r)) none records prev count io s=
        ⟨(records.take k).foldl f s,io',
          .error (.threw (.runtimeError "step replay input ended"))⟩ := by
  induction records generalizing prev io count s with
  | nil => simp at hn
  | cons r rest ih =>
    obtain ⟨input,slept⟩ := io
    cases input with
    | nil => simp at hn
    | cons c input =>
      by_cases hc : c=0
      · refine ⟨0,by simp,⟨c::input,slept⟩,?_⟩
        have hnul : prompt .step ⟨c::input,slept⟩=
            .error (.runtimeError "step replay input ended") := prompt_nul (by rw [hc]; rfl)
        rw [loopRecords,Pause.ofMode,delay_of_ne (by simp) h.1]
        simp only [bind,Except.bind,hnul]
        rfl
      · have hrest : 0∈input.take rest.length := by simpa [Ne.symm hc] using hn
        obtain ⟨k,hk,io',he⟩ := ih ⟨input,slept⟩ h.2 hrest (count+1) (f s r)
        refine ⟨k+1,by simp at hk ⊢; omega,io',?_⟩
        rw [loopRecords_cons (Pause.ofMode_ok (delay_of_ne (by simp) h.1)
          (prompt_step (by simpa using hc))) rfl]
        exact he

def stepped (records : List CaptureRecord) (input : Bytes) : Replayed (List CaptureRecord) :=
  run .step logged (captureFile records) { input := input } []

/-- One record for each character of the input, and an exception at its end. -/
structure StepsThrough (records : List CaptureRecord) (input : Bytes) : Prop where
  calls : (stepped records input).state=records.take (min records.length input.length)
  outcome : (stepped records input).outcome=if records.length≤ input.length then .ok records.length
    else .error (.threw (.runtimeError "step replay input ended"))
  maxSpeed : records.length≤ input.length →
    (stepped records input).state=(run .maxSpeed logged (captureFile records) {} []).state

/-- A step replay goes through the records one by one exactly when there is a character for each
of them and no such character is NUL: the end of the input is not noticed, and a NUL is taken for
it. -/
theorem stepsThrough_iff {input : Bytes} (hfits : Fits records) (hord : Ordered records) :
    StepsThrough records input ↔ records.length≤ input.length ∧ 0∉input.take records.length := by
  have htime := inTime_none.mpr hord
  have hrun : stepped records input=_ :=
    runWith_captureFile (.ofMode .step) logged hfits { input := input } []
  constructor
  · intro h
    by_cases hn : 0∈input.take records.length
    · obtain ⟨k,hk,io',he⟩ := loopRecords_nul (fun log r => log++[r]) { input := input } htime hn 0 []
      have hcalls := congrArg List.length h.calls
      rw [hrun,show loopRecords (.ofMode .step) logged none records none 0 _ []=_ from he,
        foldl_logged] at hcalls
      simp at hcalls hk
      omega
    · refine ⟨?_,hn⟩
      by_contra hlen
      have hout := h.outcome
      rw [hrun,show loopRecords (.ofMode .step) logged none records none 0 _ []=_ from
        loopRecords_step (fun log r => log++[r]) htime hn 0 [],if_neg hlen] at hout
      cases hout
  · rintro ⟨hlen,hn⟩
    have hstep : loopRecords (.ofMode .step) logged none records none 0 { input := input } []=_ :=
      loopRecords_step (fun log r => log++[r]) htime hn 0 []
    have hmax : loopRecords (.ofMode .maxSpeed) logged none records none 0 {} []=_ :=
      loopRecords_maxSpeed (fun log r => log++[r]) none records none 0 {} []
    refine ⟨?_,?_,fun _ => ?_⟩
    · rw [hrun,hstep,foldl_logged,Nat.min_eq_left hlen,List.take_length]
      rfl
    · rw [hrun,hstep,if_pos hlen,Nat.zero_add]
    · rw [hrun,hstep,run,runWith_captureFile _ logged hfits,hmax,inTime_eq htime]

/-- Two records, and a character for each. -/
theorem stepsThrough_two : StepsThrough [⟨0,[1]⟩,⟨1,[2]⟩] [10,10] :=
  (stepsThrough_iff (by simp [Fits]) (by simp [Ordered])).mpr ⟨by decide,by decide⟩

/-- One record is delivered although the input is empty. -/
theorem stepped_at_end : Fits [⟨0,[1]⟩] ∧ Ordered [⟨0,[1]⟩] ∧ (stepped [⟨0,[1]⟩] []).state=[⟨0,[1]⟩] ∧
    (∃ n, (stepped [⟨0,[1]⟩] []).outcome=.ok n) ∧ ¬StepsThrough [⟨0,[1]⟩] [] := by
  have hs : stepped [⟨0,[1]⟩] []=_ :=
    runWith_captureFile (.ofMode .step) logged (by simp [Fits]) {} []
  have hstate : (stepped [⟨0,[1]⟩] []).state=[⟨0,[1]⟩] := by
    rw [hs]
    rfl
  refine ⟨by simp [Fits],by simp [Ordered],hstate,⟨1,?_⟩,fun h => ?_⟩
  · rw [hs]
    rfl
  · have hcalls := hstate.symm.trans h.calls
    cases hcalls

end Step

section Realtime
variable {σ : Type} {records : List CaptureRecord} {prev : Option UInt64}

/-- What is slept before a record. -/
def delayBefore (prev : Option UInt64) (ns : UInt64) : List Int64 :=
  match prev with
  | none => []
  | some p => if ns-p=0 then [] else [(ns-p).toInt64]

def delays (prev : Option UInt64) : List CaptureRecord → List Int64
  | [] => []
  | r::rest => delayBefore prev r.monotonicNs++delays (some r.monotonicNs) rest

theorem delay_realtime {ns : UInt64} (h : ∀ p∈prev, p≤ns) (io : Console) :
    delay .realtime prev ns io=.ok { io with slept := io.slept++delayBefore prev ns } := by
  cases prev with
  | none => simp [delay,delayBefore]
  | some p =>
    have hp : ¬ns<p := UInt64.not_lt.mpr (h p rfl)
    by_cases hz : ns-p=0 <;> simp [delay,delayBefore,hp,hz]

theorem loopRecords_realtime (f : σ → CaptureRecord → σ) (h : InTime prev records) (count : Nat)
    (io : Console) (s : σ) :
    loopRecords (.ofMode .realtime) (fun s r => .ok (f s r)) none records prev count io s=
      ⟨records.foldl f s,{ io with slept := io.slept++delays prev records },
        .ok (count+records.length)⟩ := by
  induction records generalizing prev count io s with
  | nil => simp [loopRecords,delays]
  | cons r rest ih =>
    rw [loopRecords_cons (Pause.ofMode_ok (delay_realtime h.1 io) (prompt_of_ne (by simp) _)) rfl,
      ih h.2]
    simp [delays,Nat.add_assoc,Nat.add_comm 1]

/-- The conversion to signed nanoseconds. -/
theorem toInt_toInt64 (x : UInt64) :
    x.toInt64.toInt=if x.toNat<2^63 then (x.toNat : Int) else x.toNat-2^64 := by
  have h : x.toInt64.toInt=x.toBitVec.toInt := rfl
  rw [h,BitVec.toInt_eq_toNat_cond]
  change (if 2*x.toNat<2^64 then (x.toNat : Int) else x.toNat-(2^64 : Nat))=_
  by_cases hx : x.toNat<2^63
  · rw [if_pos hx,if_pos (by omega)]
  · rw [if_neg hx,if_neg (by omega)]
    norm_num

/-- A delay that signed nanoseconds can hold. -/
def Holdable (a b : UInt64) : Prop := b.toNat-a.toNat<2^63

theorem delayBefore_holdable {p ns : UInt64} (h : p≤ns) (hh : Holdable p ns) :
    (∀ d∈delayBefore (some p) ns, 0≤d.toInt) ∧
      ((delayBefore (some p) ns).map Int64.toInt).sum=(ns.toNat : Int)-p.toNat := by
  have hle := UInt64.le_iff_toNat_le.mp h
  have hsub := UInt64.toNat_sub_of_le ns p h
  unfold delayBefore
  by_cases hz : ns-p=0
  · have hzero : (ns-p).toNat=0 := by rw [hz]; rfl
    simp only [hz,if_true,List.map_nil,List.sum_nil]
    exact ⟨by simp,by omega⟩
  · have hint : (ns-p).toInt64.toInt=((ns-p).toNat : Int) := by
      rw [toInt_toInt64,if_pos (by rw [hsub]; exact hh)]
    simp only [hz,if_false,List.map_cons,List.map_nil,List.sum_singleton,List.mem_singleton,
      forall_eq,hint]
    omega

/-- A longer delay turns negative. -/
theorem delayBefore_negative {p ns : UInt64} (h : p≤ns) (hh : ¬Holdable p ns) :
    ∃ d∈delayBefore (some p) ns, d.toInt<0 := by
  have hsub := UInt64.toNat_sub_of_le ns p h
  have hlt := (ns-p).toNat_lt
  have hbig : ¬(ns-p).toNat<2^63 := by rw [hsub]; exact hh
  have hz : ns-p≠0 := fun he => hbig (by rw [he]; decide)
  refine ⟨(ns-p).toInt64,by simp [delayBefore,hz],?_⟩
  rw [toInt_toInt64,if_neg hbig]
  omega

/-- The last of some timestamps less the first. -/
def span (times : List UInt64) : Int := (times.getLastD 0).toNat-((times.headD 0).toNat : Int)

theorem delays_holdable {p : UInt64} (h : InTime (some p) records)
    (hh : Linked Holdable (some p) records) : (∀ d∈delays (some p) records, 0≤d.toInt) ∧
      ((delays (some p) records).map Int64.toInt).sum=
        span (p::records.map CaptureRecord.monotonicNs) := by
  induction records generalizing p with
  | nil => simp [delays,span]
  | cons r rest ih =>
    obtain ⟨hnonneg,hsum⟩ := delayBefore_holdable (h.1 p rfl) (hh.1 p rfl)
    obtain ⟨hrest,hsums⟩ := ih h.2 hh.2
    rw [delays,List.map_append,List.sum_append,hsum,hsums]
    refine ⟨fun d hd => (List.mem_append.mp hd).elim (hnonneg d) (hrest d),?_⟩
    simp only [span,List.map_cons,List.headD_cons,List.getLastD_cons]
    omega

theorem delays_negative {p : UInt64} (h : InTime (some p) records)
    (hh : ¬Linked Holdable (some p) records) : ∃ d∈delays (some p) records, d.toInt<0 := by
  induction records generalizing p with
  | nil => exact absurd trivial hh
  | cons r rest ih =>
    rw [delays]
    by_cases hr : Holdable p r.monotonicNs
    · obtain ⟨d,hd,hneg⟩ := ih h.2 fun hrest => hh ⟨fun q hq => by cases hq; exact hr,hrest⟩
      exact ⟨d,List.mem_append_right _ hd,hneg⟩
    · obtain ⟨d,hd,hneg⟩ := delayBefore_negative (h.1 p rfl) hr
      exact ⟨d,List.mem_append_left _ hd,hneg⟩

/-- The delays of a whole capture: there is none before its first record. -/
theorem delays_whole (h : Ordered records) :
    (∀ d∈delays none records, 0≤d.toInt) ∧ ((delays none records).map Int64.toInt).sum=
        span (records.map CaptureRecord.monotonicNs) ∧
      (records.map CaptureRecord.monotonicNs).IsChain Holdable ∨
    (∃ d∈delays none records, d.toInt<0) ∧
      ¬(records.map CaptureRecord.monotonicNs).IsChain Holdable := by
  have htime := inTime_none.mpr h
  cases records with
  | nil => simp [delays,span]
  | cons r rest =>
    have hlinked := linked_iff Holdable (some r.monotonicNs) rest
    by_cases hh : Linked Holdable (some r.monotonicNs) rest
    · obtain ⟨hnonneg,hsum⟩ := delays_holdable htime.2 hh
      exact .inl ⟨hnonneg,hsum,hlinked.mp hh⟩
    · exact .inr ⟨delays_negative htime.2 hh,fun hc => hh (hlinked.mpr hc)⟩

def replayedInRealtime (records : List CaptureRecord) : Replayed (List CaptureRecord) :=
  run .realtime logged (captureFile records) {} []

/-- The replay sleeps for the time that the capture spans, forward only, unless it throws. -/
def Paced (records : List CaptureRecord) : Prop :=
  ((∀ d∈(replayedInRealtime records).console.slept, 0≤d.toInt) ∧
    ((replayedInRealtime records).console.slept.map Int64.toInt).sum=
      span (records.map CaptureRecord.monotonicNs)) ∨
  ∃ e, (replayedInRealtime records).outcome=.error (.threw e)

/-- A replay in real time keeps the pace exactly when no delay exceeds signed nanoseconds. -/
theorem paced_iff (hfits : Fits records) (hord : Ordered records) :
    Paced records ↔ (records.map CaptureRecord.monotonicNs).IsChain Holdable := by
  have hrun : replayedInRealtime records=_ :=
    runWith_captureFile (.ofMode .realtime) logged hfits {} []
  have hloop : loopRecords (.ofMode .realtime) logged none records none 0 {} []=_ :=
    loopRecords_realtime (fun log r => log++[r]) (inTime_none.mpr hord) 0 {} []
  have hslept : (replayedInRealtime records).console.slept=delays none records := by
    rw [hrun,hloop]
    rfl
  have hok : (replayedInRealtime records).outcome=.ok (0+records.length) := by
    rw [hrun,hloop]
  unfold Paced
  rw [hslept,hok]
  obtain ⟨hnonneg,hsum,hh⟩ | ⟨⟨d,hd,hneg⟩,hh⟩ := delays_whole hord
  · exact iff_of_true (.inl ⟨hnonneg,hsum⟩) hh
  · refine iff_of_false ?_ hh
    rintro (⟨hnonneg,-⟩ | ⟨e,he⟩)
    · exact absurd (hnonneg d hd) (Int.not_le.mpr hneg)
    · cases he

theorem paced_three : Paced [⟨0,[1]⟩,⟨5,[]⟩,⟨5,[2]⟩] :=
  (paced_iff (by simp [Fits]) (by simp [Ordered])).mpr (by simp [Holdable])

/-- A delay of `2^63` nanoseconds becomes the most negative number. -/
theorem not_paced_long : Fits [⟨0,[1]⟩,⟨0x8000000000000000,[2]⟩] ∧
    Ordered [⟨0,[1]⟩,⟨0x8000000000000000,[2]⟩] ∧
    (replayedInRealtime [⟨0,[1]⟩,⟨0x8000000000000000,[2]⟩]).console.slept=[Int64.minValue] ∧
    ¬Paced [⟨0,[1]⟩,⟨0x8000000000000000,[2]⟩] := by
  have hfits : Fits [⟨0,[1]⟩,⟨0x8000000000000000,[2]⟩] := by simp [Fits]
  have hord : Ordered [⟨0,[1]⟩,⟨0x8000000000000000,[2]⟩] := by simp [Ordered]
  have hrun : replayedInRealtime [⟨0,[1]⟩,⟨0x8000000000000000,[2]⟩]=_ :=
    runWith_captureFile (.ofMode .realtime) logged hfits {} []
  have hslept : (replayedInRealtime [⟨0,[1]⟩,⟨0x8000000000000000,[2]⟩]).console.slept=
      [Int64.minValue] := by
    rw [hrun]
    rfl
  refine ⟨hfits,hord,hslept,?_⟩
  rintro (⟨hnonneg,-⟩ | ⟨e,he⟩)
  · rw [hslept] at hnonneg
    exact absurd (hnonneg _ (List.mem_singleton.mpr rfl)) (by decide)
  · rw [hrun] at he
    cases he

end Realtime

end ReplayEngine
end MarketWire
