import Nikl.Text.Cluster.Class

/-
Characters as a reader counts them. A letter with its marks, a syllable, a flag or a picture made of
several is one cluster, however many code points it takes. A text is cut between any two characters
that do not join, and whether they join depends on the cluster so far and the character after it.
-/

set_option autoImplicit false

namespace Nikl.Text

open ClusterClass

/-! ## Where characters join

`earlier` is the cluster so far, with its last character first. -/

/-- Whether a consonant behind the cluster is joined to it: marks stand behind a consonant, and one of
them at least is a sign of conjunction. -/
def joinsConsonant (earlier : List Char) : Bool :=
  (earlier.takeWhile isTransparent).any linkers.contains &&
    ((earlier.dropWhile isTransparent).head?.map ClusterClass.of) = some .consonant

/-- Whether a picture behind a joiner is joined to the cluster before the joiner: a picture with marks
on it. -/
def endsInPicture (earlier : List Char) : Bool :=
  ((earlier.dropWhile fun c => ClusterClass.of c = .mark).head?.map ClusterClass.of) = some .picture

/-- Whether the second half of a flag is missing. -/
def endsInHalfFlag (earlier : List Char) : Bool := (earlier.takeWhile isFlag).length % 2 = 1

/-- Whether a character joins the cluster before it. -/
def joins : (earlier : List Char) → Char → Bool
  | [], _ => true
  | last :: before, c =>
    match ClusterClass.of last, ClusterClass.of c with
    | .control, _ | _, .control => last = '\r' && c = '\n'
    | .lead, .lead | .lead, .vowel | .lead, .leadVowel | .lead, .leadVowelTail => true
    | .vowel, .vowel | .vowel, .tail | .leadVowel, .vowel | .leadVowel, .tail => true
    | .tail, .tail | .leadVowelTail, .tail => true
    | _, .mark | _, .joiner | _, .spacing | .opening, _ => true
    | _, .consonant => joinsConsonant (last :: before)
    | .joiner, .picture => endsInPicture before
    | .flag, .flag => endsInHalfFlag (last :: before)
    | _, _ => false

/-! ## Cutting a text -/

/-- The clusters of a text that goes on with the cluster so far. -/
def clustersFrom : (earlier : List Char) → List Char → List (List Char)
  | [], [] => []
  | earlier, [] => [earlier.reverse]
  | earlier, c :: rest =>
    if joins earlier c then clustersFrom (c :: earlier) rest
    else earlier.reverse :: clustersFrom [c] rest

/-- The clusters of a text. -/
def clusters (text : List Char) : List (List Char) := clustersFrom [] text

theorem flatten_clustersFrom (earlier text : List Char) :
    (clustersFrom earlier text).flatten = earlier.reverse ++ text := by
  induction text generalizing earlier with
  | nil => cases earlier <;> simp [clustersFrom]
  | cons c rest ih =>
    simp only [clustersFrom]
    split <;> simp [ih]

/-- Cutting loses nothing. -/
theorem flatten_clusters (text : List Char) : (clusters text).flatten = text :=
  flatten_clustersFrom [] text

end Nikl.Text
