import EvmBlocks.Block
import EvmBlocks.Instruction

/-!
# EvmBlocks.Journal

What an analysis reports about its own progress.

An analysis hands its events to a journal, which keeps those that its level
asks for.  The events are values; written down, each is a record with a level, the
stage that reports it, and a text.
-/

namespace EvmBlocks

/-- How much a journal keeps: each level keeps what the ones before it keep. -/
inductive Level where
  | off
  | error
  | warn
  | info
  | debug
  | trace
  deriving DecidableEq, Repr

/-- The place of a level in their order. -/
def Level.rank : Level → Nat
  | .off => 0
  | .error => 1
  | .warn => 2
  | .info => 3
  | .debug => 4
  | .trace => 5

/-- The two stages of an analysis. -/
inductive Stage where
  | decoding
  | segmenting
  deriving DecidableEq, Repr

/-- Something worth reporting. -/
inductive Event where
  /-- A byte without a row in the opcode table was decoded. -/
  | unassigned (offset : Nat) (opcode : Opcode)
  /-- The code ended inside an operand. -/
  | truncated (i : Instruction)
  /-- A code was decoded completely. -/
  | decoded (instructions bytes : Nat)
  /-- A block was found. -/
  | block (b : Block)
  /-- A map was segmented completely. -/
  | segmented (instructions blocks : Nat)
  deriving DecidableEq, Repr

namespace Event

/-- The stage that reports the event. -/
def stage : Event → Stage
  | .unassigned .. | .truncated _ | .decoded .. => .decoding
  | .block _ | .segmented .. => .segmenting

/-- The level from which on the event is kept. -/
def level : Event → Level
  | .unassigned .. | .block _ => .trace
  | .truncated _ | .decoded .. | .segmented .. => .debug

/-- The text of the event. -/
def message : Event → String
  | .unassigned offset opcode =>
      "Unassigned opcode at offset " ++ Numeral.hex offset ++ ": " ++
        Numeral.hexByte opcode.byte
  | .truncated i =>
      i.opcode.text ++ " at offset " ++ Numeral.hex i.offset ++ " truncated: " ++
        Numeral.decimal i.data.length ++ " of " ++ Numeral.decimal i.opcode.immediateSize ++
        " immediate bytes"
  | .decoded instructions bytes =>
      "decoded " ++ Numeral.decimal instructions ++ " instructions from " ++
        Numeral.decimal bytes ++ " bytes"
  | .block b => "block " ++ Numeral.hex b.start ++ ".." ++ Numeral.hex b.stop
  | .segmented instructions blocks =>
      "segmented " ++ Numeral.decimal instructions ++ " instructions into " ++
        Numeral.decimal blocks ++ " blocks"

end Event

/-- An event that is written down. -/
structure Record where
  level : Level
  stage : Stage
  text : String
  deriving DecidableEq, Repr

/-- Writes an event down. -/
def Event.record (e : Event) : Record := ⟨e.level, e.stage, e.message⟩

/-- The events kept so far, newest first, by a journal of some level. -/
structure Journal where
  level : Level
  newestFirst : List Event
  deriving DecidableEq, Repr

namespace Journal

/-- A journal without events. -/
def empty (level : Level) : Journal := ⟨level, []⟩

/-- A journal that keeps nothing. -/
def silent : Journal := empty .off

/-- The journal keeps events like this one. -/
def keeps (j : Journal) (e : Event) : Bool := e.level.rank ≤ j.level.rank

/-- Adds an event, if it is to be kept. -/
def record (j : Journal) (e : Event) : Journal :=
  if j.keeps e then { j with newestFirst := e :: j.newestFirst } else j

/-- The events in the order in which they were reported. -/
def events (j : Journal) : List Event := j.newestFirst.reverse

/-- The events as they are written down, in that order. -/
def records (j : Journal) : List Record := j.events.map Event.record

@[simp] theorem level_record (j : Journal) (e : Event) : (j.record e).level = j.level := by
  unfold record
  split <;> rfl

@[simp] theorem record_silent (e : Event) : silent.record e = silent := by
  cases e <;> rfl

theorem events_record (j : Journal) (e : Event) :
    (j.record e).events = j.events ++ if j.keeps e then [e] else [] := by
  unfold record events
  split <;> simp_all

end Journal

end EvmBlocks
