import MarketWire.ReplayModes

/-! The pace of a replay, and that it is nothing but a pace: in every mode the callback gets the
same records, unless a scaled delay is refused. -/
namespace MarketWire
open Library

namespace ReplayEngine

/-- The same replay up to the console. -/
def SameResult {σ : Type} (out out' : Replayed σ) : Prop :=
  out.state=out'.state ∧ out.outcome=out'.outcome

/-! A pause that throws only when a record is out of time leaves no trace in what is replayed. -/
section Steady
variable {P P' : Console → Prop} {pause pause' : Pause}

/-- Such a pause, as long as the console has a property that it keeps. -/
structure Steady (P : Console → Prop) (pause : Pause) : Prop where
  inTime : ∀ {prev ns io}, P io → (∀ p∈prev, p≤ns) → ∃ io', pause prev ns io=.ok io' ∧ P io'
  late : ∀ {prev ns io}, (¬∀ p∈prev, p≤ns) →
    pause prev ns io=.error (.runtimeError "capture timestamps are not monotonic")

theorem Steady.agree (h : Steady P pause) (h' : Steady P' pause') {σ : Type}
    (cb : σ → CaptureRecord → Except Abort σ) (last : Option Thrown) (records : List CaptureRecord)
    (prev : Option UInt64) (count : Nat) {io io' : Console} (hp : P io) (hp' : P' io') (s : σ) :
    SameResult (loopRecords pause cb last records prev count io s)
      (loopRecords pause' cb last records prev count io' s) := by
  induction records generalizing prev count io io' s with
  | nil => cases last <;> exact ⟨rfl,rfl⟩
  | cons r rest ih =>
    rw [loopRecords,loopRecords]
    by_cases ht : ∀ p∈prev, p ≤ r.monotonicNs
    · obtain ⟨io1,he,hp⟩ := h.inTime hp ht
      obtain ⟨io2,he',hp'⟩ := h'.inTime hp' ht
      rw [he,he']
      dsimp only
      cases cb s r with
      | error a => exact ⟨rfl,rfl⟩
      | ok s => exact ih _ _ hp hp' _
    · rw [h.late ht,h'.late ht]
      exact ⟨rfl,rfl⟩

/-- A mode throws of itself only at a NUL in the step input. -/
theorem steady_ofMode (mode : ReplayMode) :
    Steady (fun io => mode=.step → 0∉io.input) (.ofMode mode) where
  inTime {prev ns io} hp ht := by
    obtain ⟨io1,he,hin⟩ : ∃ io1, delay mode prev ns io=.ok io1 ∧ io1.input=io.input := by
      cases prev with
      | none => exact ⟨io,rfl,rfl⟩
      | some p =>
        simp only [delay,if_neg (UInt64.not_lt.mpr (ht p rfl))]
        split_ifs
        · exact ⟨_,rfl,rfl⟩
        · exact ⟨_,rfl,rfl⟩
    rw [Pause.ofMode,he]
    change ∃ io', prompt mode io1=.ok io' ∧ _
    unfold prompt
    split_ifs with hm
    · cases hi : io1.input with
      | nil => exact ⟨io1,rfl,fun _ => by simp [hi]⟩
      | cons c rest =>
        have hnot := hp hm
        rw [← hin,hi,List.mem_cons,not_or] at hnot
        dsimp only
        rw [if_neg (Ne.symm hnot.1)]
        exact ⟨_,rfl,fun _ => hnot.2⟩
    · exact ⟨io1,rfl,fun h => absurd h hm⟩
  late h := Pause.ofMode_late mode _ h

end Steady

section Modes
variable {σ : Type}

/-- What a replay hands to its callback and how it ends do not depend on its mode. -/
theorem run_any_mode {mode mode' : ReplayMode} (cb : σ → CaptureRecord → Except Abort σ)
    (file : Bytes) {io io' : Console} (hin : mode=.step → 0∉io.input)
    (hin' : mode'=.step → 0∉io'.input) (s : σ) :
    SameResult (run mode cb file io s) (run mode' cb file io' s) := by
  rw [run,run,runWith_eq_loopRecords,runWith_eq_loopRecords]
  exact (steady_ofMode mode).agree (steady_ofMode mode') cb _ _ none 0 hin hin' s

end Modes

section Scaled
variable {σ : Type} (cb : σ → CaptureRecord → Except Abort σ) (scale : Scale)

/-- The timestamp that the next record is held against. -/
def lastTime (prev : Option UInt64) (records : List CaptureRecord) : Option UInt64 :=
  records.foldl (fun _ r => some r.monotonicNs) prev

/-- The records `before` are in time order and taken by the callback, and the delay before the
next one is too large. -/
structure Refuses (records : List CaptureRecord) (prev : Option UInt64) (s : σ)
    (before : List CaptureRecord) (s' : σ) : Prop where
  ordered : InTime prev before
  taken : before.foldlM cb s=.ok s'
  refused : ∃ r p, before++[r]<+:records ∧ lastTime prev before=some p ∧ p < r.monotonicNs ∧
    scale.delay (r.monotonicNs-p)=none

/-- A replay that ended at the first such delay. -/
structure Overslept (records : List CaptureRecord) (prev : Option UInt64) (s : σ)
    (out : Replayed σ) : Prop where
  first : ∃ before, Refuses cb scale records prev s before out.state ∧
    ∀ before' s', Refuses cb scale records prev s before' s' → before<+:before'
  outcome : out.outcome=.error (.threw (.runtimeError "scaled replay delay is too large"))

variable {cb scale} {r : CaptureRecord} {rest before : List CaptureRecord} {prev : Option UInt64}
  {s s1 s' : σ}

theorem Refuses.begins (h : Refuses cb scale rest prev s before s') : before<+:rest := by
  obtain ⟨r,p,hb,-⟩ := h.refused
  exact (List.prefix_append before [r]).trans hb

/-- Beyond a record that is in time and taken, the refused delays are those of the rest. -/
theorem refuses_cons (ht : ∀ p∈prev, p ≤ r.monotonicNs) (hcb : cb s r=.ok s1) :
    Refuses cb scale (r::rest) prev s (r::before) s' ↔
      Refuses cb scale rest (some r.monotonicNs) s1 before s' := by
  constructor
  · rintro ⟨hord,htaken,r',p,hb,hrefused⟩
    rw [List.foldlM_cons,hcb] at htaken
    exact ⟨hord.2,htaken,r',p,(List.prefix_cons_inj r).mp hb,hrefused⟩
  · rintro ⟨hord,htaken,r',p,hb,hrefused⟩
    refine ⟨⟨ht,hord⟩,?_,r',p,(List.prefix_cons_inj r).mpr hb,hrefused⟩
    rw [List.foldlM_cons,hcb]
    exact htaken

/-- The delay before the first record. -/
theorem refuses_nil : Refuses cb scale (r::rest) prev s [] s' ↔
    s'=s ∧ ∃ p, prev=some p ∧ p < r.monotonicNs ∧ scale.delay (r.monotonicNs-p)=none := by
  constructor
  · rintro ⟨-,htaken,r',p,hb,hlast,hrefused⟩
    cases htaken
    obtain ⟨rfl,-⟩ := List.cons_prefix_cons.mp hb
    exact ⟨rfl,p,hlast,hrefused⟩
  · rintro ⟨rfl,p,hlast,hrefused⟩
    exact ⟨trivial,rfl,r,p,by simp,hlast,hrefused⟩

variable (scale)

theorem scaled_cases (prev : Option UInt64) (ns : UInt64) (io : Console) :
    (¬∀ p∈prev, p≤ns) ∧ Pause.scaled scale prev ns io=
      .error (.runtimeError "capture timestamps are not monotonic") ∨
    (∀ p∈prev, p≤ns) ∧ ((¬∃ p, prev=some p ∧ p<ns ∧ scale.delay (ns-p)=none) ∧
        (∃ io', Pause.scaled scale prev ns io=.ok io') ∨
      (∃ p, prev=some p ∧ p<ns ∧ scale.delay (ns-p)=none) ∧ Pause.scaled scale prev ns io=
        .error (.runtimeError "scaled replay delay is too large")) := by
  cases prev with
  | none => exact .inr ⟨by simp,.inl ⟨by simp,io,rfl⟩⟩
  | some p =>
    by_cases hp : ns<p
    · refine .inl ⟨fun h => absurd (h p rfl) (UInt64.not_le.mpr hp),?_⟩
      simp only [Pause.scaled,if_pos hp]
    · have hle := UInt64.not_lt.mp hp
      refine .inr ⟨fun q hq => by cases hq; exact hle,?_⟩
      simp only [Pause.scaled,if_neg hp]
      by_cases hd : ns-p≠0
      · rw [if_pos hd]
        cases hs : scale.delay (ns-p) with
        | none =>
          refine .inr ⟨⟨p,rfl,UInt64.lt_of_le_of_ne hle fun he => hd ?_,hs⟩,rfl⟩
          rw [he,UInt64.sub_self]
        | some scaled =>
          refine .inl ⟨?_,_,rfl⟩
          rintro ⟨q,hq,-,hnone⟩
          cases hq
          rw [hs] at hnone
          cases hnone
      · rw [if_neg hd]
        refine .inl ⟨?_,io,rfl⟩
        rintro ⟨q,hq,hlt,-⟩
        cases hq
        have hzero := congrArg UInt64.toNat (not_not.mp hd)
        rw [UInt64.toNat_sub_of_le _ _ hle,UInt64.toNat_zero] at hzero
        have hlt := UInt64.lt_iff_toNat_lt.mp hlt
        omega

variable (cb)

/-- Up to the first refused delay the scaled loop is the loop at maximum speed. -/
theorem loopRecords_scaled (last : Option Thrown) (records : List CaptureRecord)
    (prev : Option UInt64) (count : Nat) (io io' : Console) (s : σ) :
    (∀ before s', ¬Refuses cb scale records prev s before s') ∧
        SameResult (loopRecords (.scaled scale) cb last records prev count io s)
          (loopRecords (.ofMode .maxSpeed) cb last records prev count io' s) ∨
      Overslept cb scale records prev s
        (loopRecords (.scaled scale) cb last records prev count io s) := by
  induction records generalizing prev count io s with
  | nil =>
    refine .inl ⟨fun before s' h => ?_,by cases last <;> exact ⟨rfl,rfl⟩⟩
    obtain ⟨r,p,hb,-⟩ := h.refused
    simp at hb
  | cons r rest ih =>
    rcases scaled_cases scale prev r.monotonicNs io with
      ⟨hlate,hd⟩ | ⟨ht,⟨hnot,io1,hd⟩ | ⟨hrefused,hd⟩⟩
    · rw [loopRecords,hd,loopRecords,Pause.ofMode_late _ _ hlate]
      refine .inl ⟨fun before s' h => ?_,rfl,rfl⟩
      cases before with
      | nil =>
        obtain ⟨-,p,rfl,hlt,-⟩ := refuses_nil.mp h
        exact hlate fun q hq => by cases hq; exact UInt64.le_of_lt hlt
      | cons q before =>
        obtain ⟨rfl,-⟩ := List.cons_prefix_cons.mp h.begins
        exact hlate h.ordered.1
    · rw [loopRecords,hd,loopRecords,Pause.maxSpeed_ok ht]
      dsimp only
      cases hcb : cb s r with
      | error a =>
        refine .inl ⟨fun before s' h => ?_,rfl,rfl⟩
        cases before with
        | nil => exact hnot (refuses_nil.mp h).2
        | cons q before =>
          obtain ⟨rfl,-⟩ := List.cons_prefix_cons.mp h.begins
          have htaken := h.taken
          rw [List.foldlM_cons,hcb] at htaken
          cases htaken
      | ok s1 =>
        dsimp only
        obtain ⟨hnone,hsame⟩ | ⟨⟨before,h,hfirst⟩,hout⟩ := ih (some r.monotonicNs) (count+1) io1 s1
        · refine .inl ⟨fun before s' h => ?_,hsame⟩
          cases before with
          | nil => exact hnot (refuses_nil.mp h).2
          | cons q before =>
            obtain ⟨rfl,-⟩ := List.cons_prefix_cons.mp h.begins
            exact hnone _ _ ((refuses_cons ht hcb).mp h)
        · refine .inr ⟨⟨r::before,(refuses_cons ht hcb).mpr h,fun before' s' h' => ?_⟩,hout⟩
          cases before' with
          | nil => exact absurd (refuses_nil.mp h').2 hnot
          | cons q before' =>
            obtain ⟨rfl,-⟩ := List.cons_prefix_cons.mp h'.begins
            exact (List.prefix_cons_inj _).mpr (hfirst _ _ ((refuses_cons ht hcb).mp h'))
    · rw [loopRecords,hd]
      exact .inr ⟨⟨[],refuses_nil.mpr ⟨rfl,hrefused⟩,fun _ _ _ => List.nil_prefix⟩,rfl⟩

/-- A scaled replay in which no delay is refused does what the replay at maximum speed does;
otherwise it ends at the first refused delay, with the callbacks of the records before it. -/
theorem scaled_replays (hpos : scale.positive) (file : Bytes) (io io' : Console) (s : σ) :
    ∃ records, Decodable file records ∧
      ((∀ before s', ¬Refuses cb scale records none s before s') ∧
          SameResult (runScaled cb scale file io s) (run .maxSpeed cb file io' s) ∨
        Overslept cb scale records none s (runScaled cb scale file io s)) := by
  refine ⟨_,CaptureReader.decodable_readFile file,?_⟩
  rw [runScaled,if_pos hpos,run,runWith_eq_loopRecords,runWith_eq_loopRecords]
  exact loopRecords_scaled cb scale _ _ none 0 io io' s

end Scaled

/-- Half the speed: the third record comes after a difference that twice over is too long. -/
theorem scaled_replays_half :
    let half : Scale := ⟨true,fun d => if d<0x4000000000000000 then some (d+d) else none⟩
    let file := captureFile [⟨0,[1]⟩,⟨5,[2]⟩,⟨0x4000000000000005,[3]⟩]
    (runScaled logged half file {} []).state=[⟨0,[1]⟩,⟨5,[2]⟩] ∧
      (runScaled logged half file {} []).console.slept=[10] ∧
      ∃ records, Decodable file records ∧
        Overslept logged half records none [] (runScaled logged half file {} []) := by
  intro half file
  have hfits : Fits [⟨0,[1]⟩,⟨5,[2]⟩,⟨0x4000000000000005,[3]⟩] := by simp [Fits]
  have hscaled : runScaled logged half file {} []=_ := runWith_captureFile _ logged hfits {} []
  have hmax : run .maxSpeed logged file {} []=_ := runWith_captureFile _ logged hfits {} []
  refine ⟨by rw [hscaled]; rfl,by rw [hscaled]; rfl,?_⟩
  obtain ⟨records,hdec,⟨-,-,hout⟩ | h⟩ := scaled_replays logged half rfl file {} {} []
  · rw [hscaled,hmax] at hout
    cases hout
  · exact ⟨records,hdec,h⟩

end ReplayEngine

/-- The report of a replay does not depend on its mode. -/
theorem replay_any_mode {n : Nat} {mode mode' : ReplayMode} (file : Bytes) {io io' : Console}
    (hin : mode=.step → 0∉io.input) (hin' : mode'=.step → 0∉io'.input) :
    replayWith n mode file io=replayWith n mode' file io' := by
  unfold replayWith
  cases OrderBook.create n with
  | error e => rfl
  | ok book =>
    obtain ⟨hstate,houtcome⟩ := ReplayEngine.run_any_mode replayRecord file hin hin'
      (⟨{ expected := 1 },book⟩,0)
    dsimp only
    rw [hstate,houtcome]

/-- Step by step, at the end of the input, and in real time. -/
theorem replay_any_mode_step : replayWith 4 .step (captureFile [⟨0,[1]⟩,⟨5,[2]⟩]) ⟨[10],[]⟩=
    replayWith 4 .realtime (captureFile [⟨0,[1]⟩,⟨5,[2]⟩]) {} :=
  replay_any_mode _ (by decide) (by decide)

end MarketWire
