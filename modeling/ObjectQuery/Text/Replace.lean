/-!
# Replacing every occurrence of a text

Occurrences are found from left to right and do not overlap. The empty
text occurs before every character and once more at the end, so replacing
it inserts the replacement at all of these places.

The scan is structural: after a hit it has still to pass over the rest of
the occurrence, and that number is carried along instead of dropping the
characters at once.
-/

namespace ObjectQuery.Text

/-- Replaces the occurrences of the non-empty `old`, once `skip` more
characters have been passed over. -/
def replaceOccurrences (old new : List Char) : Nat → List Char → List Char
  | _, [] => []
  | skip + 1, _ :: cs => replaceOccurrences old new skip cs
  | 0, c :: cs =>
    if old.isPrefixOf (c :: cs) then
      new ++ replaceOccurrences old new (old.length - 1) cs
    else
      c :: replaceOccurrences old new 0 cs

/-- Every occurrence of `old` in `cs` replaced by `new`. -/
def replaceChars (old new cs : List Char) : List Char :=
  if old.isEmpty then
    new ++ cs.flatMap (fun c => c :: new)
  else
    replaceOccurrences old new 0 cs

/-- Every occurrence of `old` in `s` replaced by `new`. -/
def replace (s old new : String) : String :=
  String.ofList (replaceChars old.toList new.toList s.toList)

/-- Replacing one character acts on each character by itself. -/
theorem replaceChars_singleton (old : Char) (new cs : List Char) :
    replaceChars [old] new cs = cs.flatMap fun c => if c = old then new else [c] := by
  simp only [replaceChars, List.isEmpty_cons, Bool.false_eq_true, if_false]
  induction cs with
  | nil => rfl
  | cons c cs ih =>
    by_cases h : c = old
    · subst h
      simp [replaceOccurrences, ih]
    · have h' : ¬ old = c := fun e => h e.symm
      simp [replaceOccurrences, ih, h, h']

end ObjectQuery.Text
