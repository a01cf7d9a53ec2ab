import DagSelect.Fixture.Run

/-! # Reports on cases

Two reports: one line for each case of a file with the share of cases that pass, and everything
about a single case.
-/

namespace DagSelect.Fixture

/-- A hundred times a positive double, as a quotient. -/
def hundredfold (x : Binary64) : Nat × Nat :=
  (x.significand * 100 * Nat.pow 2 x.exponent.toNat, Nat.pow 2 (-x.exponent).toNat)

/-- A hundred times a quotient as doubles compute it, rounded to two places, a half going to the
even neighbour. -/
def percentText (part whole : Nat) : String :=
  let ratio := Binary64.ofRatio false part whole
  let (num, den) := hundredfold ratio
  let (num, den) := hundredfold (Binary64.ofRatio false num den)
  let hundredths := roundHalfEven num den
  let places := hundredths % 100
  let pad := if places < 10 then "0" else ""
  s!"{hundredths / 100}.{pad}{places}"

/-- The lines of one case. A case that passes has one only when much is to be told. -/
def caseLines (verbose : Bool) (hops : Nat) (i : Nat) (c : Case) : List String :=
  match c.run? hops with
  | none => if verbose then [s!"  Case {i}: PASS (" ++ c.description ++ ")"] else []
  | some reason =>
    let failed := s!"  Case {i}: FAIL (" ++ c.description ++ ")"
    if verbose then
      [failed, "    " ++ reason, "    Selector: " ++ c.selector.text, "    Data: " ++ c.data.text]
    else [failed]

def unlines (lines : List String) : String := String.join (lines.map (· ++ "\n"))

/-- Whether all cases of a file pass, and the report on them. -/
def coverage (verbose : Bool) (hops : Nat) (cases : List Case) : Bool × String :=
  let passed := (cases.filter fun c => (c.run? hops).isNone).length
  let share := if cases.isEmpty then "0.00" else percentText passed cases.length
  let lines := cases.zipIdx.flatMap fun (c, i) => caseLines verbose hops i c
  (passed == cases.length, unlines (lines ++ [s!"  Coverage: {share}% ({passed}/{cases.length})"]))

/-- Everything about one case: what is to be printed, and what is to be complained about. -/
def describe (hops : Nat) (cases : List Case) (i : Nat) : String × String :=
  match cases[i]? with
  | none => ("", s!"Case index {i} out of range (0-{cases.length - 1})\n")
  | some c =>
    let header :=
      ["Case: " ++ c.description, "Selector: " ++ c.selector.pretty, "Data: " ++ c.data.pretty]
    let execution := match c.execute hops with
      | .ok steps => "Visits:" :: steps.map fun s => "  " ++ s.reason ++ " /" ++ s.path
      | .error e => ["Error: " ++ e]
    let result := match c.run? hops with
      | none => ["Result: PASS"]
      | some reason => ["Result: FAIL", reason]
    (unlines (header ++ execution ++ result), "")

end DagSelect.Fixture
