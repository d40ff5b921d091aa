import FlowDesugar.Text.Cluster.Table

/-!
# Grapheme clusters

A reader takes some sequences of characters for one: a letter with its accents, a Hangul syllable
spelt out, a flag, a family of linked pictographs. `Text.clusterCount` counts such extended grapheme
clusters. The rules decide between any two neighbours whether they belong together, from the class
of either and from what the cluster has held so far.
-/

namespace FlowDesugar.Text

/-- The part that a character can play in a cluster. -/
inductive ClusterClass where
  | carriageReturn
  | lineFeed
  | control
  | extender
  | joiner
  | spacingMark
  | prepended
  | regional
  | leadJamo
  | vowelJamo
  | tailJamo
  | openSyllable
  | closedSyllable
  | pictograph
  | other
deriving DecidableEq, Repr

/-- The class of a code point. -/
def clusterClass (code : Nat) : ClusterClass :=
  if code = 0x0D then .carriageReturn
  else if code = 0x0A then .lineFeed
  else if code = 0x200D then .joiner
  else if Cluster.controls.has code then .control
  else if code < 0x300 then (if Cluster.pictographs.has code then .pictograph else .other)
  else if 0x1F1E6 ≤ code ∧ code ≤ 0x1F1FF then .regional
  else if 0xAC00 ≤ code ∧ code ≤ 0xD7A3 then
    (if (code - 0xAC00) % 28 = 0 then .openSyllable else .closedSyllable)
  else if (0x1100 ≤ code ∧ code ≤ 0x115F) ∨ (0xA960 ≤ code ∧ code ≤ 0xA97C) then .leadJamo
  else if Cluster.vowels.has code then .vowelJamo
  else if (0x11A8 ≤ code ∧ code ≤ 0x11FF) ∨ (0xD7CB ≤ code ∧ code ≤ 0xD7FB) then .tailJamo
  else if Cluster.extenders.has code then .extender
  else if Cluster.spacingMarks.has code then .spacingMark
  else if Cluster.prepended.has code then .prepended
  else if Cluster.pictographs.has code then .pictograph
  else .other

/-- How far a sequence has come that a further character may continue. -/
inductive Linkage where
  /-- Not begun. -/
  | idle
  /-- Begun: a pictograph, or a consonant, with marks. -/
  | begun
  /-- Linked: the next pictograph, or consonant, belongs to it. -/
  | linked
deriving DecidableEq, Repr

/-- What is known of the text before a boundary. -/
structure ClusterState where
  /-- The class of the last character. -/
  last : ClusterClass
  /-- Whether the last character is the first of a pair of regional indicators. -/
  halfFlag : Bool
  /-- Pictographs linked by joiners. -/
  picture : Linkage
  /-- Consonants linked by linkers. -/
  conjunct : Linkage

/-- Whether a code point is a consonant of conjuncts. -/
def isConsonant (code : Nat) : Bool :=
  Cluster.consonants.has code

/--
The state after a character. Marks and joiners keep a conjunct open; the non-joiner `U+200C`, though
it extends what stands before it, ends the conjunct.
-/
def ClusterState.next (state : ClusterState) (code : Nat) : ClusterState :=
  let cls := clusterClass code
  { last := cls
    halfFlag := cls == .regional && !state.halfFlag
    picture :=
      if cls = .pictograph then .begun
      else if state.picture = .begun ∧ cls = .extender then .begun
      else if state.picture = .begun ∧ cls = .joiner then .linked
      else .idle
    conjunct :=
      if isConsonant code then .begun
      else if state.conjunct = .idle then .idle
      else if Cluster.linkers.has code then .linked
      else if (cls = .extender ∧ code ≠ 0x200C) ∨ cls = .joiner then state.conjunct
      else .idle }

/-- The state before a text. -/
def ClusterState.start : ClusterState :=
  { last := .control, halfFlag := false, picture := .idle, conjunct := .idle }

/-- Whether a class stands alone. -/
def ClusterClass.isAlone : ClusterClass → Bool
  | .carriageReturn | .lineFeed | .control => true
  | _ => false

/-- Whether a character belongs to the cluster before it. -/
def ClusterState.joins (state : ClusterState) (code : Nat) : Bool :=
  let cls := clusterClass code
  if state.last = .carriageReturn ∧ cls = .lineFeed then true
  else if state.last.isAlone || cls.isAlone then false
  else
    match state.last, cls with
    | .leadJamo, .leadJamo => true
    | .leadJamo, .vowelJamo => true
    | .leadJamo, .openSyllable => true
    | .leadJamo, .closedSyllable => true
    | .openSyllable, .vowelJamo => true
    | .openSyllable, .tailJamo => true
    | .vowelJamo, .vowelJamo => true
    | .vowelJamo, .tailJamo => true
    | .closedSyllable, .tailJamo => true
    | .tailJamo, .tailJamo => true
    | _, .extender => true
    | _, .joiner => true
    | _, .spacingMark => true
    | .prepended, _ => true
    | _, .pictograph => state.picture = .linked
    | .regional, .regional => state.halfFlag
    | _, _ => state.conjunct = .linked && isConsonant code

/-- The number of clusters that start in a text, given what stands before it. -/
def clusterStarts (state : ClusterState) : List Char → Nat
  | [] => 0
  | c :: rest =>
    clusterStarts (state.next c.toNat) rest + (if state.joins c.toNat then 0 else 1)

/-- The number of extended grapheme clusters of a text. -/
def clusterCount (cs : List Char) : Nat :=
  clusterStarts .start cs

end FlowDesugar.Text
