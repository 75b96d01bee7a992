import EchoMuse.Turn.Evidence

/-!
# Cell Attribution

What produced the sound in each cell of an open utterance, and what the endpointing policy keeps of
it. A cell is judged by its own evidence and the run carried from the cells before it. A guarded
reply's run is dated back over the speech that began inside the guard.

Loudness is in hundredths of a dB, and levels are doubles. A speech probability is compared with a
threshold by the bits of the two singles, neither of which is negative.

## Main results

* `classify_spec`: what a classification leaves, and what a run that opens starts from;
* `TurnPolicy.onCell_spec`: what a cell leaves in the policy.
-/

namespace EchoMuse.Turn

/-! ### Levels -/

def backgroundWindowCells : ℕ := 312
def backgroundMinCells : ℕ := 32
def foregroundMinCells : ℕ := 10

/-- The percentile of sorted values, interpolated between the two nearest ranks. -/
def percentileDb (sorted : List ℤ) (p : Float) : Option Float :=
  match sorted with
  | [] => none
  | [first] => some (Float.ofInt first / 100)
  | sorted =>
    let rank := p * Float.ofNat (sorted.length - 1)
    let lo := rank.floor.toUInt64.toNat
    let hi := min (lo + 1) (sorted.length - 1)
    let frac := rank - Float.ofNat lo
    let low := Float.ofInt (sorted.getD lo 0)
    some ((low + (Float.ofInt (sorted.getD hi 0) - low) * frac) / 100)

/-- A cell's speech probability, when known. -/
def CellAudio.vad : CellAudio → Option Probability
  | .present _ _ (.probability p) _ => some p
  | _ => none

/-- A cell's loudness in dB, when known. -/
def CellAudio.energyDb : CellAudio → Option Float
  | .present (some e) _ _ _ => some (Float.ofInt e / 100)
  | _ => none

/-- Valid audio with a probability of speech at or above the threshold. -/
def CellAudio.speechPositive (audio : CellAudio) (threshold : ℕ) : Bool :=
  audio.vad.any fun p => threshold ≤ p.bits

/-- The room's floor. -/
structure BackgroundLevel where
  window : List (Option ℤ)
  speechVad : ℕ

/-- The floor for the next cell, until enough cells count none. -/
def BackgroundLevel.currentDb (b : BackgroundLevel) : Option Float :=
  let counted := b.window.filterMap id
  if counted.length < backgroundMinCells then none
  else percentileDb (counted.mergeSort (· ≤ ·)) 0.20

/-- Adds a cell after it has been judged. -/
def BackgroundLevel.push (b : BackgroundLevel) (audio : CellAudio) : BackgroundLevel :=
  let counted : Option ℤ :=
    match audio with
    | .present (some e) _ _ _ => if audio.vad.all (fun p => p.bits < b.speechVad) then some e else none
    | _ => none
  let window := if b.window.length = backgroundWindowCells then b.window.drop 1 else b.window
  { b with window := window ++ [counted] }

/-- The command speaker's level. -/
structure ForegroundLevel where
  sorted : List ℤ
  seeded : Bool

def ForegroundLevel.seed (f : ForegroundLevel) (energies : List ℤ) : ForegroundLevel :=
  if foregroundMinCells ≤ energies.length then
    { sorted := (f.sorted ++ energies).mergeSort (· ≤ ·), seeded := true }
  else f

def ForegroundLevel.add (f : ForegroundLevel) (e : ℤ) : ForegroundLevel :=
  { f with sorted := f.sorted.takeWhile (· ≤ e) ++ e :: f.sorted.dropWhile (· ≤ e) }

def ForegroundLevel.currentDb (f : ForegroundLevel) : Option Float :=
  if f.sorted.length < foregroundMinCells then none else percentileDb f.sorted 0.80

/-! ### Classes -/

inductive CellClass
  | gap | selfOutput | nonSpeech | backgroundSpeech | commandSpeech | unknown
deriving DecidableEq

/-- The evidence that decided a cell's class. -/
inductive ClassRule
  | gap | muted | echo | vad | vadUnknown | level | hysteresis | underWay | guard
deriving DecidableEq

/-- The attribution thresholds. -/
structure AttributionPolicy where
  /-- At or below this a cell is no speech, and a run ends. -/
  nonSpeechMax : ℕ
  speechPositiveMin : ℕ
  /-- At or above this a run may open. -/
  runOpenMin : ℕ
  backgroundBelowDb : Float
  runOpenLevelMin : Float
  levelSpanFloorDb : Float
  /-- A reply run that starts more than this before the trigger is already under way. -/
  underWayLead : ℕ

/-- The deployed thresholds: probabilities 0.35, 0.50 and 0.70, and 480 ms. -/
def AttributionPolicy.default : AttributionPolicy where
  nonSpeechMax := 0x3EB33333
  speechPositiveMin := 0x3F000000
  runOpenMin := 0x3F333333
  backgroundBelowDb := 10
  runOpenLevelMin := 0.55
  levelSpanFloorDb := 12
  underWayLead := 7680

/-- A command-speech run that opened on a cell. -/
structure RunOpen where
  start : ℕ
  /-- The cells the start was dated back over. -/
  datedBackCells : ℕ
deriving DecidableEq

/-- A classified cell. -/
structure Classified where
  cls : CellClass
  rule : ClassRule
  opened : Option RunOpen
deriving DecidableEq

/-! ### The classifier -/

/-- Classifies one utterance's cells in sample order. -/
structure CellClassifier where
  policy : AttributionPolicy
  trigger : ℕ
  /-- The reply rules: the end of the opening guard, if the reply has one. -/
  reply : Option (Option ℕ)
  /-- The start of the run's first cell. -/
  run : Option ℕ
  /-- The start of the current stretch of cells that are voiced. -/
  voicedSince : Option ℕ
  pastTrigger : Bool
  underWay : Bool

namespace CellClassifier

def new (policy : AttributionPolicy) (trigger : ℕ) (reply : Option (Option ℕ)) : CellClassifier where
  policy := policy
  trigger := trigger
  reply := reply
  run := none
  voicedSince := none
  pastTrigger := false
  underWay := false

def endRun (c : CellClassifier) : CellClassifier := { c with run := none, underWay := false }

/-- A sample rounded down to its cell. -/
def roundDown (sample : ℕ) : ℕ := cellStart (cellOf sample)

def plain (cls : CellClass) (rule : ClassRule) : Classified := ⟨cls, rule, none⟩

/-- The cell is voiced: only its probability of speech counts. -/
def voiced (policy : AttributionPolicy) (vad : Option Probability) : Bool :=
  vad.any fun v => policy.nonSpeechMax < v.bits

/-- Tracks contiguous voiced cells. -/
def track (c : CellClassifier) (cell : ℕ) (vad : Option Probability) : CellClassifier :=
  { c with voicedSince := if voiced c.policy vad then c.voicedSince.or (some (cellStart cell)) else none }

/-- The under-way test, at the first cell after the trigger: a reply's run that began long before it
is speech that was already going on. -/
def passTrigger (c : CellClassifier) (cell : ℕ) : CellClassifier :=
  if c.trigger < cellEnd cell ∧ c.pastTrigger = false then
    { c with
      pastTrigger := true
      underWay := c.underWay ||
        c.reply.isSome && c.run.any fun first => c.policy.underWayLead < c.trigger - first }
  else c

/-- Speech clearly quieter than the command. -/
def isBackground (policy : AttributionPolicy) (v : Probability) (energy foreground : Option Float) :
    Bool :=
  policy.speechPositiveMin ≤ v.bits &&
    match energy, foreground with
    | some e, some f => e ≤ f - policy.backgroundBelowDb
    | _, _ => false

/-- Speech too quiet to open a run. -/
def belowRange (policy : AttributionPolicy) (energy background foreground : Option Float) : Bool :=
  match energy, background, foreground with
  | some e, some b, some f =>
    (e - b) / max (f - b) policy.levelSpanFloorDb < policy.runOpenLevelMin
  | _, _, _ => false

/-- Where a run that opens on a cell starts: a guarded reply's, whose speech began inside the guard,
where that speech began, but not before the cell holding the trigger. -/
def runStart (c : CellClassifier) (cell : ℕ) : ℕ :=
  match c.reply.join, c.voicedSince with
  | some g, some since =>
    if since < g then min (max since (roundDown c.trigger)) (cellStart cell) else cellStart cell
  | _, _ => cellStart cell

/-- A cell inside the opening guard. -/
def guarded (c : CellClassifier) (cell : ℕ) : Bool :=
  c.reply.join.any fun g => c.trigger < cellEnd cell && cellStart cell < g

/-- The class of a cell with audio, once the stretch is tracked. -/
def judge (c : CellClassifier) (cell : ℕ) (energy : Option Float) (vad : Option Probability)
    (echo : EchoLabel) (background foreground : Option Float) : Classified × CellClassifier :=
  if echo = .echoOnly then (plain .selfOutput .echo, c.endRun)
  else
    match vad with
    | none => (plain .unknown .vadUnknown, c.endRun)
    | some v =>
      if v.bits ≤ c.policy.nonSpeechMax then (plain .nonSpeech .vad, c.endRun)
      else if c.underWay = true ∧ c.run.isSome then (plain .backgroundSpeech .underWay, c)
      else if isBackground c.policy v energy foreground then (plain .backgroundSpeech .level, c.endRun)
      else if c.run.isSome then (plain .commandSpeech .hysteresis, c)
      else if v.bits < c.policy.runOpenMin then (plain .unknown .vad, c)
      else if belowRange c.policy energy background foreground then (plain .unknown .level, c)
      else if c.guarded cell then (plain .unknown .guard, c)
      else
        (⟨.commandSpeech, .vad, some ⟨c.runStart cell, (cellStart cell - c.runStart cell) / cellSamples⟩⟩,
          { c with run := some (cellStart cell) })

/-- Classifies the next cell with the levels in force before it. -/
def classify (c : CellClassifier) (cell : ℕ) (audio : CellAudio)
    (background foreground : Option Float) : Classified × CellClassifier :=
  match audio with
  | .gap muted =>
    (plain .gap (if muted then .muted else .gap), { c.endRun with voicedSince := none })
  | .present _ _ _ echo =>
    ((c.track cell audio.vad).passTrigger cell).judge cell audio.energyDb audio.vad echo.label
      background foreground

end CellClassifier

/-! ### The policy -/

inductive TurnKind
  | wake (supportStart : ℕ)
  | button
  | reply (guardUntil : Option ℕ) (noInputAt : ℕ)
deriving DecidableEq

/-- One utterance to judge. -/
structure TurnSpec where
  start : ℕ
  trigger : ℕ
  kind : TurnKind
deriving DecidableEq

inductive CloseReason
  | muted | interrupted
deriving DecidableEq

/-- One decision for the device runtime, of those a cell makes. -/
inductive Decision
  | commandStarted (start : ℕ)
  | close (reason : CloseReason) (frontier : Option ℕ)
  | reopenReply (start trigger noInputAt : ℕ)
deriving DecidableEq

structure CellRecord where
  cls : CellClass
  speechPositive : Bool
  stop : ℕ
deriving DecidableEq

/-- One utterance's speech policy, as far as a cell reads and writes it. -/
structure TurnPolicy where
  attribution : AttributionPolicy
  spec : TurnSpec
  classifier : CellClassifier
  background : BackgroundLevel
  foreground : ForegroundLevel
  /-- Wake-word cells that may seed the foreground; none once the cells have reached the trigger. -/
  seed : Option (List ℤ)
  cells : List CellRecord
  frontier : Option ℕ
  commandCells : ℕ
  datedBackCells : ℕ
  commandEnds : List ℕ
  commandStart : Option ℕ
  runStart : Option ℕ
  lastSpeechPositiveEnd : Option ℕ
  /-- The end of the gap a reply met before any command speech. -/
  replyGapEnd : Option ℕ
  finished : Bool

namespace TurnPolicy

open CellClassifier (roundDown)

def new (attribution : AttributionPolicy) (spec : TurnSpec) : TurnPolicy where
  attribution := attribution
  spec := spec
  classifier := .new attribution spec.trigger <|
    match spec.kind with
    | .reply guardUntil _ => some guardUntil
    | _ => none
  background := ⟨[], attribution.nonSpeechMax⟩
  foreground := ⟨[], false⟩
  seed := some []
  cells := []
  frontier := none
  commandCells := 0
  datedBackCells := 0
  commandEnds := []
  commandStart := none
  runStart := none
  lastSpeechPositiveEnd := none
  replyGapEnd := none
  finished := false

def isReply (p : TurnPolicy) : Bool :=
  match p.spec.kind with
  | .reply .. => true
  | _ => false

/-- The reply goes on in a fresh utterance. -/
def reopen (p : TurnPolicy) (gapEnd : ℕ) : TurnPolicy × List Decision :=
  match p.spec.kind with
  | .reply _ noInputAt =>
    ({ p with finished := true }, [.reopenReply gapEnd (max gapEnd p.spec.trigger) noInputAt])
  | _ => (p, [])

def close (p : TurnPolicy) (reason : CloseReason) : TurnPolicy × List Decision :=
  if p.finished then (p, []) else ({ p with finished := true }, [.close reason p.frontier])

/-- The foreground is seeded once the cells reach the trigger. -/
def seedForeground (p : TurnPolicy) : TurnPolicy :=
  match p.seed with
  | some energies => { p with seed := none, foreground := p.foreground.seed energies }
  | none => p

/-- The policy a cell is judged in: the foreground is seeded from the wake word once the cells reach
the trigger. -/
def reached (p : TurnPolicy) (cell : ℕ) : TurnPolicy :=
  if p.spec.trigger < cellEnd cell then p.seedForeground else p

/-- The class of a cell, with the levels in force before it. -/
def judge (p : TurnPolicy) (cell : ℕ) (audio : CellAudio) : Classified × CellClassifier :=
  p.classifier.classify cell audio p.background.currentDb (p.reached cell).foreground.currentDb

/-- What every judged cell is recorded with. -/
def record (p : TurnPolicy) (cell : ℕ) (audio : CellAudio) (judged : Classified × CellClassifier) :
    TurnPolicy :=
  let positive := audio.speechPositive p.attribution.speechPositiveMin
  { p with
    classifier := judged.2
    frontier := some (cellEnd cell)
    lastSpeechPositiveEnd := if positive then some (cellEnd cell) else p.lastSpeechPositiveEnd
    cells := p.cells ++ [⟨judged.1.cls, positive, cellEnd cell⟩]
    runStart := (judged.1.opened.map (·.start)).or p.runStart
    datedBackCells := p.datedBackCells +
      if p.spec.trigger < cellEnd cell then (judged.1.opened.map (·.datedBackCells)).getD 0 else 0 }

/-- A cell of the wake word may seed the foreground. -/
def collectSeed (p : TurnPolicy) (cell : ℕ) (audio : CellAudio) : TurnPolicy :=
  match p.spec.kind, audio, p.seed with
  | .wake supportStart, .present (some e) _ _ _, some energies =>
    if supportStart ≤ cellStart cell ∧ audio.vad.any (fun v => p.attribution.nonSpeechMax ≤ v.bits) then
      { p with seed := some (energies ++ [e]) }
    else p
  | _, _, _ => p

/-- A cell of command speech after the trigger. -/
def command (p : TurnPolicy) (cell : ℕ) (audio : CellAudio) : TurnPolicy × List Decision :=
  let foreground :=
    match audio with
    | .present (some e) _ _ _ => p.foreground.add e
    | _ => p.foreground
  ({ p with
      foreground := foreground
      commandCells := p.commandCells + 1
      commandEnds := p.commandEnds ++ [cellEnd cell]
      commandStart := if p.commandStart = none ∧ p.spec.trigger ≤ cellStart cell then
        some (cellStart cell) else p.commandStart },
    if p.commandCells = 0 then [.commandStarted (cellStart cell)] else [])

/-- What a judged cell leaves. -/
def afterJudged (p : TurnPolicy) (cell : ℕ) (audio : CellAudio) (cls : CellClass) :
    TurnPolicy × List Decision :=
  match audio with
  | .gap muted =>
    if p.isReply = true ∧ p.commandCells = 0 then
      ({ p with replyGapEnd := some (cellEnd cell) }, [])
    else p.close (if muted then .muted else .interrupted)
  | .present .. =>
    if p.spec.trigger < cellEnd cell then
      if cls = .commandSpeech then p.command cell audio else (p, [])
    else (p.collectSeed cell audio, [])

/-- A reply that met a gap before any command speech evaluates nothing until audio comes back. -/
def inGap (p : TurnPolicy) (gapEnd cell : ℕ) : CellAudio → TurnPolicy × List Decision
  | .gap _ => ({ p with replyGapEnd := some (cellEnd cell) }, [])
  | .present .. => p.reopen gapEnd

/-- Loudness history before the utterance only feeds the background. -/
def onCell (p : TurnPolicy) (cell : ℕ) (audio : CellAudio) : TurnPolicy × List Decision :=
  let judged := p.judge cell audio
  let p := { p with background := p.background.push audio }
  if cellStart cell < roundDown p.spec.start then (p, [])
  else
    match p.replyGapEnd with
    | some gapEnd => p.inGap gapEnd cell audio
    | none => ((p.reached cell).record cell audio judged).afterJudged cell audio judged.1.cls

/-- The cells that are judged. -/
def judges (p : TurnPolicy) (cell : ℕ) : Bool :=
  roundDown p.spec.start ≤ cellStart cell && p.replyGapEnd.isNone

end TurnPolicy

/-! ### What a classification leaves -/

namespace CellClassifier

variable {c : CellClassifier} {cell : ℕ} {audio : CellAudio} {background foreground : Option Float}

section

variable (c : CellClassifier) (cell : ℕ)

@[simp] theorem track_policy (vad) : (c.track cell vad).policy = c.policy := rfl
@[simp] theorem track_trigger (vad) : (c.track cell vad).trigger = c.trigger := rfl
@[simp] theorem track_reply (vad) : (c.track cell vad).reply = c.reply := rfl
@[simp] theorem track_run (vad) : (c.track cell vad).run = c.run := rfl
@[simp] theorem track_voicedSince (vad) : (c.track cell vad).voicedSince =
    if voiced c.policy vad then c.voicedSince.or (some (cellStart cell)) else none := rfl

@[simp] theorem passTrigger_policy : (c.passTrigger cell).policy = c.policy := by
  rw [passTrigger]
  split_ifs <;> rfl

@[simp] theorem passTrigger_trigger : (c.passTrigger cell).trigger = c.trigger := by
  rw [passTrigger]
  split_ifs <;> rfl

@[simp] theorem passTrigger_reply : (c.passTrigger cell).reply = c.reply := by
  rw [passTrigger]
  split_ifs <;> rfl

@[simp] theorem passTrigger_run : (c.passTrigger cell).run = c.run := by
  rw [passTrigger]
  split_ifs <;> rfl

@[simp] theorem passTrigger_voicedSince : (c.passTrigger cell).voicedSince = c.voicedSince := by
  rw [passTrigger]
  split_ifs <;> rfl

end

/-- The device's own playback explains the cell. -/
def echoOnly : CellAudio → Bool
  | .present _ _ _ echo => echo.label = .echoOnly
  | .gap _ => false

/-- Neither the cell's evidence nor a run that is there decides what a voiced cell is. -/
structure Undisturbed (c : CellClassifier) (audio : CellAudio) (foreground : Option Float) : Prop where
  run : c.run = none
  echo : echoOnly audio = false
  level : ∀ v, audio.vad = some v → isBackground c.policy v audio.energyDb foreground = false

/-- The cell's evidence opens a run. -/
structure Opens (c : CellClassifier) (cell : ℕ) (audio : CellAudio)
    (background foreground : Option Float) : Prop where
  undisturbed : c.Undisturbed audio foreground
  vad : ∃ v, audio.vad = some v ∧ c.policy.nonSpeechMax < v.bits ∧ c.policy.runOpenMin ≤ v.bits
  level : belowRange c.policy audio.energyDb background foreground = false
  guarded : c.guarded cell = false

/-- What a judged cell leaves. -/
structure JudgeSpec (c : CellClassifier) (cell : ℕ) (energy : Option Float) (vad : Option Probability)
    (echo : EchoLabel) (background foreground : Option Float) (r : Classified × CellClassifier) :
    Prop where
  policy : r.2.policy = c.policy
  trigger : r.2.trigger = c.trigger
  reply : r.2.reply = c.reply
  voicedSince : r.2.voicedSince = c.voicedSince
  opens : r.1.opened.isSome = true ↔ (c.run = none ∧ echo ≠ .echoOnly ∧
      ∀ v, vad = some v → isBackground c.policy v energy foreground = false) ∧
    (∃ v, vad = some v ∧ c.policy.nonSpeechMax < v.bits ∧ c.policy.runOpenMin ≤ v.bits) ∧
    belowRange c.policy energy background foreground = false ∧ c.guarded cell = false
  opened : ∀ o, r.1.opened = some o → r.1.cls = .commandSpeech ∧ r.2.run = some (cellStart cell) ∧
    o = ⟨c.runStart cell, (cellStart cell - c.runStart cell) / cellSamples⟩
  unknown : voiced c.policy vad = true → (r.1.cls = .unknown ∨ r.1.opened.isSome = true ↔
    c.run = none ∧ echo ≠ .echoOnly ∧
      ∀ v, vad = some v → isBackground c.policy v energy foreground = false)
  command : r.1.cls = .commandSpeech → voiced c.policy vad = true

theorem judge_spec (c : CellClassifier) (cell : ℕ) (energy : Option Float) (vad : Option Probability)
    (echo : EchoLabel) (background foreground : Option Float) :
    JudgeSpec c cell energy vad echo background foreground
      (c.judge cell energy vad echo background foreground) := by
  simp only [judge]
  by_cases hecho : echo = .echoOnly
  · rw [if_pos hecho]
    exact ⟨rfl, rfl, rfl, rfl, by simp [plain, hecho], nofun, fun _ => by simp [plain, hecho], nofun⟩
  · rw [if_neg hecho]
    cases vad with
    | none => exact ⟨rfl, rfl, rfl, rfl, by simp [plain], nofun, nofun, nofun⟩
    | some v =>
      dsimp only
      split_ifs with hquiet hunder hlevel hrun hvad hrange hguard
      · refine ⟨rfl, rfl, rfl, rfl, iff_of_false (by simp [plain]) ?_, nofun, fun h => ?_, nofun⟩
        · rintro ⟨-, ⟨w, hw, hvoiced, -⟩, -⟩
          cases hw
          exact absurd hvoiced (not_lt.mpr hquiet)
        · exact absurd (of_decide_eq_true h) (not_lt.mpr hquiet)
      all_goals
        have hvoiced : voiced c.policy (some v) = true := decide_eq_true (not_le.mp hquiet)
      · have hrun : c.run ≠ none := Option.isSome_iff_ne_none.mp hunder.2
        exact ⟨rfl, rfl, rfl, rfl, iff_of_false (by simp [plain]) fun h => hrun h.1.1, nofun,
          fun _ => iff_of_false (by simp [plain]) fun h => hrun h.1, nofun⟩
      · have hnot : ¬ ∀ w, some v = some w → isBackground c.policy w energy foreground = false :=
          fun h => by rw [h v rfl] at hlevel; cases hlevel
        exact ⟨rfl, rfl, rfl, rfl, iff_of_false (by simp [plain]) fun h => hnot h.1.2.2, nofun,
          fun _ => iff_of_false (by simp [plain]) fun h => hnot h.2.2, nofun⟩
      · have hrun : c.run ≠ none := Option.isSome_iff_ne_none.mp hrun
        exact ⟨rfl, rfl, rfl, rfl, iff_of_false (by simp [plain]) fun h => hrun h.1.1, nofun,
          fun _ => iff_of_false (by simp [plain]) fun h => hrun h.1, fun _ => hvoiced⟩
      all_goals
        have hundisturbed : c.run = none ∧ echo ≠ .echoOnly ∧ ∀ w, some v = some w →
            isBackground c.policy w energy foreground = false := by
          refine ⟨Option.not_isSome_iff_eq_none.mp hrun, hecho, ?_⟩
          rintro w ⟨⟩
          exact Bool.eq_false_iff.mpr hlevel
      · refine ⟨rfl, rfl, rfl, rfl, iff_of_false (by simp [plain]) ?_, nofun,
          fun _ => iff_of_true (.inl rfl) hundisturbed, nofun⟩
        rintro ⟨-, ⟨w, hw, -, hopen⟩, -⟩
        cases hw
        exact absurd hopen (not_le.mpr hvad)
      · refine ⟨rfl, rfl, rfl, rfl, iff_of_false (by simp [plain]) ?_, nofun,
          fun _ => iff_of_true (.inl rfl) hundisturbed, nofun⟩
        rintro ⟨-, -, h, -⟩
        rw [h] at hrange
        cases hrange
      · refine ⟨rfl, rfl, rfl, rfl, iff_of_false (by simp [plain]) ?_, nofun,
          fun _ => iff_of_true (.inl rfl) hundisturbed, nofun⟩
        rintro ⟨-, -, -, h⟩
        rw [h] at hguard
        cases hguard
      · refine ⟨rfl, rfl, rfl, rfl, iff_of_true rfl ⟨hundisturbed, ⟨v, rfl, not_le.mp hquiet,
          not_lt.mp hvad⟩, Bool.eq_false_iff.mpr hrange, Bool.eq_false_iff.mpr hguard⟩, ?_,
          fun _ => iff_of_true (.inr rfl) hundisturbed, fun _ => hvoiced⟩
        rintro o ⟨⟩
        exact ⟨rfl, rfl, rfl⟩

/-- What a classification leaves. -/
structure ClassifySpec (c : CellClassifier) (cell : ℕ) (audio : CellAudio)
    (background foreground : Option Float) (r : Classified × CellClassifier) : Prop where
  policy : r.2.policy = c.policy
  trigger : r.2.trigger = c.trigger
  reply : r.2.reply = c.reply
  voicedSince : r.2.voicedSince =
    if voiced c.policy audio.vad then c.voicedSince.or (some (cellStart cell)) else none
  opens : r.1.opened.isSome = true ↔ c.Opens cell audio background foreground
  opened : ∀ o, r.1.opened = some o → r.1.cls = .commandSpeech ∧ r.2.run = some (cellStart cell) ∧
    o = ⟨(c.track cell audio.vad).runStart cell,
      (cellStart cell - (c.track cell audio.vad).runStart cell) / cellSamples⟩
  unknown : voiced c.policy audio.vad = true →
    (r.1.cls = .unknown ∨ r.1.opened.isSome = true ↔ c.Undisturbed audio foreground)
  command : r.1.cls = .commandSpeech → voiced c.policy audio.vad = true

theorem classify_spec (c : CellClassifier) (cell : ℕ) (audio : CellAudio)
    (background foreground : Option Float) :
    ClassifySpec c cell audio background foreground (c.classify cell audio background foreground) := by
  cases audio with
  | gap muted =>
    refine ⟨rfl, rfl, rfl, rfl, iff_of_false (by simp [classify, plain]) ?_, nofun, nofun, ?_⟩
    · rintro ⟨-, ⟨v, hv, -⟩, -, -⟩
      cases hv
    · intro h
      simp only [classify, plain] at h
      cases h
  | present energy mask vad echo =>
    have h := judge_spec ((c.track cell (CellAudio.present energy mask vad echo).vad).passTrigger cell)
      cell (CellAudio.present energy mask vad echo).energyDb
      (CellAudio.present energy mask vad echo).vad echo.label background foreground
    have hguard : ((c.track cell (CellAudio.present energy mask vad echo).vad).passTrigger
        cell).guarded cell = c.guarded cell := by
      rw [guarded, guarded, passTrigger_reply, passTrigger_trigger, track_reply, track_trigger]
    have hstart : ((c.track cell (CellAudio.present energy mask vad echo).vad).passTrigger
        cell).runStart cell = (c.track cell (CellAudio.present energy mask vad echo).vad).runStart
          cell := by
      rw [runStart, runStart, passTrigger_reply, passTrigger_trigger, passTrigger_voicedSince]
    have hundisturbed : (c.run = none ∧ echo.label ≠ .echoOnly ∧
        ∀ v, (CellAudio.present energy mask vad echo).vad = some v → isBackground c.policy v
          (CellAudio.present energy mask vad echo).energyDb foreground = false) ↔
        c.Undisturbed (.present energy mask vad echo) foreground :=
      ⟨fun h => ⟨h.1, decide_eq_false h.2.1, h.2.2⟩,
        fun h => ⟨h.run, of_decide_eq_false h.echo, h.level⟩⟩
    obtain ⟨hpolicy, htrigger, hreply, hvoiced, hopens, hopened, hunknown, hcommand⟩ := h
    simp only [passTrigger_policy, track_policy, passTrigger_trigger, track_trigger,
      passTrigger_reply, track_reply, passTrigger_voicedSince, track_voicedSince, passTrigger_run,
      track_run, hguard, hstart, hundisturbed]
      at hpolicy htrigger hreply hvoiced hopens hopened hunknown hcommand
    refine ⟨hpolicy, htrigger, hreply, hvoiced, hopens.trans ?_, hopened, hunknown, hcommand⟩
    exact ⟨fun h => ⟨h.1, h.2.1, h.2.2.1, h.2.2.2⟩, fun h => ⟨h.1, h.2, h.3, h.4⟩⟩

end CellClassifier

/-! ### What a cell leaves in the policy -/

namespace TurnPolicy

open CellClassifier (roundDown)

variable {p : TurnPolicy} {cell : ℕ} {audio : CellAudio}

@[simp] theorem reached_spec : (p.reached cell).spec = p.spec := by
  rw [reached, seedForeground]
  split_ifs
  · split <;> rfl
  · rfl

@[simp] theorem reached_commandCells : (p.reached cell).commandCells = p.commandCells := by
  rw [reached, seedForeground]
  split_ifs
  · split <;> rfl
  · rfl

@[simp] theorem reached_datedBackCells : (p.reached cell).datedBackCells = p.datedBackCells := by
  rw [reached, seedForeground]
  split_ifs
  · split <;> rfl
  · rfl

theorem close_frame (p : TurnPolicy) (reason : CloseReason) :
    (p.close reason).1.spec = p.spec ∧ (p.close reason).1.classifier = p.classifier ∧
      (p.close reason).1.commandCells = p.commandCells ∧
      (p.close reason).1.datedBackCells = p.datedBackCells := by
  rw [close]
  split_ifs <;> exact ⟨rfl, rfl, rfl, rfl⟩

theorem collectSeed_frame (p : TurnPolicy) (cell : ℕ) (audio : CellAudio) :
    (p.collectSeed cell audio).spec = p.spec ∧
      (p.collectSeed cell audio).classifier = p.classifier ∧
      (p.collectSeed cell audio).commandCells = p.commandCells ∧
      (p.collectSeed cell audio).datedBackCells = p.datedBackCells := by
  rw [collectSeed.eq_def]
  split
  · split_ifs <;> exact ⟨rfl, rfl, rfl, rfl⟩
  · exact ⟨rfl, rfl, rfl, rfl⟩

/-- After a cell is recorded only command speech is counted. -/
theorem afterJudged_frame (p : TurnPolicy) (cell : ℕ) (audio : CellAudio) (cls : CellClass)
    (hgap : ∀ muted, audio = .gap muted → cls ≠ .commandSpeech) :
    (p.afterJudged cell audio cls).1.spec = p.spec ∧
      (p.afterJudged cell audio cls).1.classifier = p.classifier ∧
      (p.afterJudged cell audio cls).1.commandCells = p.commandCells +
        (if p.spec.trigger < cellEnd cell ∧ cls = .commandSpeech then 1 else 0) ∧
      (p.afterJudged cell audio cls).1.datedBackCells = p.datedBackCells := by
  rw [afterJudged.eq_def]
  split
  next muted =>
    have hzero : (if p.spec.trigger < cellEnd cell ∧ cls = .commandSpeech then 1 else 0) = 0 :=
      if_neg fun h => hgap muted rfl h.2
    rw [hzero]
    split_ifs
    · exact ⟨rfl, rfl, rfl, rfl⟩
    · exact close_frame p _
    · exact close_frame p _
  next =>
    by_cases hafter : p.spec.trigger < cellEnd cell
    · rw [if_pos hafter]
      by_cases hcls : cls = .commandSpeech
      · rw [if_pos hcls, if_pos ⟨hafter, hcls⟩]
        exact ⟨rfl, rfl, rfl, rfl⟩
      · rw [if_neg hcls, if_neg fun h => hcls h.2]
        exact ⟨rfl, rfl, rfl, rfl⟩
    · rw [if_neg hafter, if_neg fun h => hafter h.1]
      exact collectSeed_frame p _ _

/-- What a cell that is judged leaves of what the counts are made of. -/
theorem onCell_judged (h : p.judges cell = true) :
    (p.onCell cell audio).1.spec = p.spec ∧
      (p.onCell cell audio).1.classifier = (p.judge cell audio).2 ∧
      (p.onCell cell audio).1.commandCells = p.commandCells +
        (if p.spec.trigger < cellEnd cell ∧ (p.judge cell audio).1.cls = .commandSpeech then 1
          else 0) ∧
      (p.onCell cell audio).1.datedBackCells = p.datedBackCells +
        (if p.spec.trigger < cellEnd cell then
          ((p.judge cell audio).1.opened.map (·.datedBackCells)).getD 0 else 0) := by
  rw [judges, Bool.and_eq_true, decide_eq_true_eq, Option.isNone_iff_eq_none] at h
  have hgap : ∀ muted, audio = .gap muted → (p.judge cell audio).1.cls ≠ .commandSpeech := by
    rintro muted rfl hcls
    cases hcls
  have heq : p.onCell cell audio = ((reached { p with background := p.background.push audio }
      cell).record cell audio (p.judge cell audio)).afterJudged cell audio
        (p.judge cell audio).1.cls := by
    simp only [onCell]
    rw [if_neg (not_lt.mpr h.1)]
    split
    next hgap =>
      rw [h.2] at hgap
      cases hgap
    next => rfl
  rw [heq]
  obtain ⟨hspec, hclassifier, hcommand, hdated⟩ := afterJudged_frame
    ((reached { p with background := p.background.push audio } cell).record cell audio
      (p.judge cell audio)) cell audio (p.judge cell audio).1.cls hgap
  rw [hspec, hclassifier, hcommand, hdated]
  simp only [record, reached_spec, reached_commandCells, reached_datedBackCells]
  exact ⟨trivial, trivial, trivial, trivial⟩

/-- A cell that is not judged changes none of it. -/
theorem onCell_skipped (h : p.judges cell = false) :
    (p.onCell cell audio).1.spec = p.spec ∧
      (p.onCell cell audio).1.classifier = p.classifier ∧
      (p.onCell cell audio).1.commandCells = p.commandCells ∧
      (p.onCell cell audio).1.datedBackCells = p.datedBackCells ∧
      (roundDown p.spec.start ≤ cellStart cell →
        (p.onCell cell audio).1.finished = true ∨
          (p.onCell cell audio).1.replyGapEnd.isSome = true) := by
  simp only [onCell]
  by_cases hstart : cellStart cell < roundDown p.spec.start
  · rw [if_pos hstart]
    exact ⟨rfl, rfl, rfl, rfl, fun hle => absurd hstart (not_lt.mpr hle)⟩
  · rw [if_neg hstart]
    rw [judges, decide_eq_true (not_lt.mp hstart), Bool.true_and] at h
    split
    next gapEnd hgap =>
      cases audio with
      | gap muted => exact ⟨rfl, rfl, rfl, rfl, fun _ => .inr rfl⟩
      | present energy mask vad echo =>
        simp only [inGap, reopen]
        split
        · exact ⟨rfl, rfl, rfl, rfl, fun _ => .inl rfl⟩
        · exact ⟨rfl, rfl, rfl, rfl, fun _ => .inr (by rw [hgap]; rfl)⟩
    next hgap =>
      rw [hgap] at h
      cases h

end TurnPolicy

end EchoMuse.Turn
