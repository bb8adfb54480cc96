/-!
# Anchor — words of the pentagon group

The tiling of the hyperbolic plane by right-angled pentagons is generated by the reflections in
the five sides of one pentagon. A word of sides names the pentagon reached by reflecting in them
one after another. Reflections are involutions, and those in sides that follow each other around
the pentagon commute; no other relations hold.

* `Word.push`: one more reflection, which may cancel one before it.
* `Word.product`: a shortest word for the same reflections.
* `Word.normalForm`: the least spelling of a word among those that differ by swaps of commuting
  letters.
-/

namespace Mosaic

/-- A side of the pentagon, numbered around it. -/
abbrev Side := Fin 5

namespace Side

/-- The side where numbering begins. -/
def first : Side := ⟨0, by decide⟩

/-- The side that follows around the pentagon. -/
def next (s : Side) : Side := ⟨(s.val + 1) % 5, Nat.mod_lt _ (by decide)⟩

/-- Whether two sides follow each other, so that the reflections in them commute. -/
def commutes (a b : Side) : Bool := a == b.next || b == a.next

end Side

/-- A sequence of reflections in sides of the pentagon. -/
abbrev Word := List Side

namespace Word

/-- A word read backwards without the first letter `s` that everything before it commutes with;
none if there is no such letter. -/
def cancel? (s : Side) : List Side → Option (List Side)
  | [] => none
  | c :: rest =>
    if c = s then some rest
    else if c.commutes s then (cancel? s rest).map (c :: ·)
    else none

/-- The reduced word `w` followed by the reflection `s`: without its last `s` if that can be moved
to the end, else with one more letter. -/
def push (w : Word) (s : Side) : Word :=
  match cancel? s w.reverse with
  | some rest => rest.reverse
  | none => w ++ [s]

/-- A reduced word for the same reflections. -/
def product (w : Word) : Word := w.foldl push []

/-- The letters of a word that can be moved to its front past the letters `seen` before it. No
letter commutes with three others, so the search ends at the third. -/
def headsPast (seen : List Side) : List Side → List Side
  | [] => []
  | c :: rest =>
    if 3 ≤ seen.length then []
    else if seen.contains c then headsPast seen rest
    else if seen.all (·.commutes c) then c :: headsPast (c :: seen) rest
    else headsPast (c :: seen) rest

/-- The letters that can be moved to the front of a word. -/
def heads (w : Word) : List Side := headsPast [] w

/-- The least of a list of letters. -/
def least? : List Side → Option Side
  | [] => none
  | c :: rest => some (match least? rest with
    | none => c
    | some d => if d < c then d else c)

/-- Takes the least letter that can be moved to the front, `n` times. -/
def leastSpelling : (n : Nat) → Word → Word
  | 0, _ => []
  | n + 1, w =>
    match least? w.heads with
    | none => []
    | some c => c :: leastSpelling n (w.erase c)

/-- The least spelling of a word among those that differ by swaps of commuting letters. -/
def normalForm (w : Word) : Word := leastSpelling w.length w

end Word

end Mosaic
