import FlowDesugar.Diagnostic.Basic
import FlowDesugar.Number.Basic

/-!
# Source locations

The nodes of a tree carry handles, and a source map says what each handle stands for: a position in
the source text, a note that says how a generated node came about, or both. Handles are minted in
order and never change their meaning; `Handle.unknown` stands for no location.
-/

namespace FlowDesugar

/-- A line and a column of the source text, both counted from one. -/
structure Position where
  line : UInt64
  column : UInt64
deriving DecidableEq, Repr

/-- A position as `line:column`. -/
def Position.text (position : Position) : String :=
  Number.naturalText position.line.toNat ++ ":" ++ Number.naturalText position.column.toNat

/-- A handle of a location in a source map. -/
inductive Handle where
  /-- No location. -/
  | unknown
  /-- The location minted when `index` others were there. -/
  | entry (index : Nat)
deriving DecidableEq, Repr

namespace Handle

/-- The number of a location, if the handle has one. -/
def index? : Handle → Option Nat
  | unknown => none
  | entry index => some index

/-- The order of handles: the unknown one first, then by age. -/
def before : Handle → Handle → Bool
  | unknown, unknown => false
  | unknown, entry _ => true
  | entry _, unknown => false
  | entry a, entry b => a < b

/-- A handle in brackets, counted from one. -/
def text : Handle → String
  | unknown => "[?]"
  | entry index => "[" ++ Number.naturalText (index + 1) ++ "]"

end Handle

/-- What is known of a location. -/
structure SourceInfo where
  position : Option Position
  note : Option String
deriving DecidableEq, Repr

/-- The locations minted so far, in order. -/
structure SourceMap where
  entries : Array SourceInfo := #[]
deriving DecidableEq, Repr

namespace SourceMap

/-- The map without locations. -/
def empty : SourceMap := {}

/-- The number of locations. -/
def size (map : SourceMap) : Nat :=
  map.entries.size

/-- Mints a handle for the given information. -/
def mint (map : SourceMap) (info : SourceInfo) : Handle × SourceMap :=
  (.entry map.size, { entries := map.entries.push info })

/-- What a handle stands for. -/
def info? (map : SourceMap) (handle : Handle) : Option SourceInfo :=
  handle.index?.bind (map.entries[·]?)

/-- The position a handle stands for. -/
def position? (map : SourceMap) (handle : Handle) : Option Position :=
  (map.info? handle).bind SourceInfo.position

/-- Mints a handle for a position. -/
def add (map : SourceMap) (position : Position) : Handle × SourceMap :=
  map.mint { position := some position, note := none }

/-- Mints a handle for a generated node that belongs nowhere in the source text. -/
def addSynthetic (map : SourceMap) (note : String) : Handle × SourceMap :=
  map.mint { position := none, note := some note }

/-- Mints a handle for the position of another one, with a note of its own. -/
def annotated (map : SourceMap) (handle : Handle) (note : String) : Handle × SourceMap :=
  map.mint { position := map.position? handle, note := some note }

/-- The diagnostic of a problem at a handle. Its position is given as a note, or its own note when
there is no position. -/
def diagnostic (map : SourceMap) (handle : Handle) (message : String) : Diagnostic :=
  let bare : Diagnostic := { message }
  match map.info? handle with
  | some { position := some position, .. } => bare.withNote ("at " ++ position.text)
  | some { position := none, note := some note } => bare.withNote ("in " ++ note)
  | _ => bare

end SourceMap

end FlowDesugar
