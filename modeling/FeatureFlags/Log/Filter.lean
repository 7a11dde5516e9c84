import FeatureFlags.Log.Event
import FeatureFlags.Log.Pattern

/-!
# Log filters

Which events a log shows. A filter is written as directives between commas, each of them a level, a
channel, or both with a `=` between them; a directive may ask for a field of the event in brackets.
Of the directives that match an event, the most specific one decides.

The parts of a directive are found by their positions in the text without the white space around
it, and then cut from the text with that white space (`Directive.cut`). So white space in front
shifts all parts.
-/

namespace FeatureFlags

/-- A threshold for events: those of this rank and of graver ones are shown. -/
abbrev Threshold := Nat

namespace Threshold

def all : Threshold := Level.trace.rank

def words : List String := ["off", "error", "warn", "info", "debug", "trace"]

def ofDigits? (word : List Char) : Option Threshold :=
  (Text.digitsValue? 10 (Text.dropSign (· = '+') word)).filter (· < words.length)

/-- Reads a level in any mix of upper and lower case, or its rank. -/
def ofWord? (word : List Char) : Option Threshold :=
  match words.idxOf? (String.ofList (word.map Char.toLower)) with
  | some rank => some rank
  | none => ofDigits? word

end Threshold

/-- What a directive asks of an event: a field, and maybe what the field is. -/
structure FieldTest where
  name : List Char
  value : Option (List Char)
deriving DecidableEq, Repr

structure Directive where
  /-- What a channel must begin with. -/
  channel : Option (List Char)
  /-- A name for spans of events, of which there are none. -/
  span : Option (List Char)
  /-- A field that the event must have; with a value it asks for a span as well. -/
  field : Option FieldTest
  threshold : Threshold
deriving DecidableEq, Repr

inductive FilterFault where
  | malformed
  /-- A part would start or end inside a character. Reading breaks off. -/
  | dividedCharacter
deriving DecidableEq, Repr

/-- Reads a field's name and, after a `=`, its value. What follows a second `=` is left out. -/
def FieldTest.ofText (text : List Char) : Except FilterFault FieldTest :=
  let name := text.takeWhile (· ≠ '=')
  match text.drop name.length with
  | [] => if text = [] then .error .malformed else .ok ⟨name, none⟩
  | _ :: rest =>
    let value := rest.takeWhile (· ≠ '=')
    if Pattern.isValue value then .ok ⟨name, some value⟩ else .error .malformed

namespace Directive

def cutFrom (whole : List Char) (start : Nat) : Except FilterFault (List Char) :=
  match Text.dropBytes? start whole with
  | some part => .ok part
  | none => .error .dividedCharacter

def cut (whole : List Char) (start stop : Nat) : Except FilterFault (List Char) :=
  match Text.dropBytes? start whole, Text.dropBytes? stop whole with
  | some part, some after => .ok (part.take (part.length - after.length))
  | _, _ => .error .dividedCharacter

/-- Reads the threshold that starts after `start` bytes; nothing there shows all levels. -/
def thresholdAt (whole : List Char) (start : Nat) : Except FilterFault Threshold :=
  match cutFrom whole start with
  | .error fault => .error fault
  | .ok [] => .ok Threshold.all
  | .ok word =>
    match Threshold.ofWord? word with
    | some threshold => .ok threshold
    | none => .error .malformed

def afterBracket (whole : List Char) (start : Nat) : List Char → Except FilterFault Threshold
  | [] => .ok Threshold.all
  | '=' :: _ => thresholdAt whole (start + 1)
  | _ => .error .malformed

/-- Reads a directive from behind its `[` on, which is where `text` starts. -/
def ofBracket (whole : List Char) (channel : Option (List Char)) (start : Nat)
    (text : List Char) : Except FilterFault Directive :=
  let span := text.takeWhile fun c => c ≠ ']' && c ≠ '\x7b'
  let stop := start + Text.byteCount span
  match text.drop span.length with
  | ']' :: rest => do
    let span ← cut whole start stop
    let threshold ← afterBracket whole (stop + 1) rest
    .ok ⟨channel, some span, none, threshold⟩
  | '\x7b' :: rest => do
    let span ← cut whole start stop
    let field := rest.takeWhile (· ≠ '\x7d')
    let fieldStop := stop + 1 + Text.byteCount field
    match rest.drop field.length with
    | [] => .error .malformed
    | _ :: rest =>
      let field ← FieldTest.ofText (← cut whole (stop + 1) fieldStop)
      match rest with
      | ']' :: rest =>
        let threshold ← afterBracket whole (fieldStop + 2) rest
        .ok ⟨channel, if span = [] then none else some span, some field, threshold⟩
      | _ => .error .malformed
  | _ => .error .malformed

def mayStart (c : Char) : Bool := c = '-' || c = ':' || c = '_' || Text.isAlphanumeric c

/-- Reads a directive. A word alone is a level, or else a channel. -/
def ofText (whole : List Char) : Except FilterFault Directive :=
  match Text.trim whole with
  | [] => .error .malformed
  | '[' :: rest => ofBracket whole none 1 rest
  | first :: rest =>
    if !mayStart first then .error .malformed
    else
      let name := (first :: rest).takeWhile fun c => c ≠ '=' && c ≠ '['
      let stop := Text.byteCount name
      match (first :: rest).drop name.length with
      | [] =>
        match Threshold.ofWord? whole with
        | some threshold => .ok ⟨none, none, none, threshold⟩
        | none => .ok ⟨some whole, none, none, Threshold.all⟩
      | '=' :: _ => do
        let channel ← cut whole 0 stop
        let threshold ← thresholdAt whole (stop + 1)
        .ok ⟨some channel, none, none, threshold⟩
      | _ :: rest => do
        let channel ← cut whole 0 stop
        ofBracket whole (some channel) (stop + 1) rest

def isForEvents (directive : Directive) : Bool :=
  directive.span = none && directive.field.all (·.value = none)

def isAbout (directive : Directive) (event : Event) : Bool :=
  directive.channel.all (·.isPrefixOf event.channel.toList) &&
    directive.field.all fun field =>
      ("message" :: event.fields.map (·.1)).contains (String.ofList field.name)

/--
How specific a directive is, among those about one event: first by the length of its channel, then
by its field.
-/
def isAtLeast (directive other : Directive) : Bool :=
  let length (d : Directive) := d.channel.elim 0 (·.length + 1)
  let field (d : Directive) := d.field.elim [] ('\x7b' :: ·.name)
  length other < length directive ||
    (length other = length directive && !(field directive).lex (field other))

end Directive

structure Filter where
  directives : List Directive
deriving DecidableEq, Repr

namespace Filter

/-- Shows what the program shows unless it is told otherwise. -/
def default (verbose : Bool) : Filter :=
  ⟨[⟨none, none, none, if verbose then Level.debug.rank else Level.warn.rank⟩]⟩

/-- Reads a filter. Empty directives are passed over. -/
def ofText (text : String) : Except FilterFault Filter :=
  (((text.toList.splitOn ',').filter (· ≠ [])).mapM Directive.ofText).map Filter.mk

/--
The filter that a setting asks for, or the default if that is missing or malformed. There is none
if reading it breaks off.
-/
def ofSetting? (setting : Option String) (verbose : Bool) : Option Filter :=
  match setting with
  | none => some (default verbose)
  | some text =>
    match ofText text with
    | .ok filter => some filter
    | .error .malformed => some (default verbose)
    | .error .dividedCharacter => none

/-- The directive that decides about an event. Of two that are as specific, it is the later. -/
def deciding? (filter : Filter) (event : Event) : Option Directive :=
  (filter.directives.filter fun directive =>
      directive.isForEvents && directive.isAbout event).foldl
    (fun best directive =>
      match best with
      | some other => if directive.isAtLeast other then some directive else best
      | none => some directive)
    none

def admits (filter : Filter) (event : Event) : Bool :=
  (filter.deciding? event).any fun directive => event.level.rank ≤ directive.threshold

def lines (filter : Filter) (events : List Event) : List String :=
  (events.filter filter.admits).map Event.line

end Filter

end FeatureFlags
