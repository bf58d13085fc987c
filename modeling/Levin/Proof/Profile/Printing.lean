import Levin.Framework.Headings
import Levin.Proof.Profile.GetLines

/-!
# What is printed of a profile

`print_result` prints the lines that `get_lines` returns, and the name of a file where
it is another one than before (`printLines_eq`). The lines are in order, so that each
file is named once, and all its lines are under its name (`printResult_iff`).
-/

namespace Levin.SimpleProfile

open Framework

variable {getsource : GetSource} {p : SimpleProfile} {getline : Text → Nat → Text} {showTime : Int → Text}

/-- The text of a heading, or of a line. -/
def printed (getline : Text → Nat → Text) (showTime : Int → Text) : Text ⊕ CallResult → Text :=
  Sum.elim fileText (lineText getline showTime)

theorem printLines_eq (filename : Option Text) (lines : List CallResult) :
    printLines getline showTime filename lines =
      (headed CallResult.filename filename lines).map (printed getline showTime) := by
  induction lines generalizing filename with
  | nil => rfl
  | cons line lines ih =>
    rw [printLines, headed]
    by_cases hfile : filename = some line.filename
    · rw [if_neg (not_not_intro hfile), if_pos hfile, ih]
      rfl
    · rw [if_pos hfile, if_neg hfile, ih]
      rfl

/-- The name of a file, and its lines. -/
def fileLines (getline : Text → Nat → Text) (showTime : Int → Text) (lines : List CallResult) (filename : Text) : List Text :=
  fileText filename :: (lines.filter fun line => line.filename = filename).map (lineText getline showTime)

theorem sortKey_filename {a b : CallResult} (h : sortKey a < sortKey b) : a.filename ≤ b.filename := by
  rcases Prod.Lex.toLex_lt_toLex.mp h with hlt | ⟨heq, -⟩
  · exact hlt.le
  · exact heq.le

/-- Of lines in order each file is named once. -/
theorem printLines_sorted (getline : Text → Nat → Text) (showTime : Int → Text) {lines : List CallResult}
    (h : lines.Pairwise fun a b => sortKey a < sortKey b) :
    ∃ files : List Text, files.Pairwise (· < ·) ∧ (∀ file, file ∈ files ↔ file ∈ lines.map CallResult.filename) ∧
      printLines getline showTime none lines = files.flatMap (fileLines getline showTime lines) := by
  obtain ⟨files, hincreasing, hmem, heq⟩ := headed_sorted (h.imp sortKey_filename)
  refine ⟨files, hincreasing, hmem, ?_⟩
  rw [printLines_eq, heq, List.map_flatMap]
  refine List.flatMap_congr fun file _ => ?_
  rw [part, List.map_cons, List.map_map]
  rfl

/-! ## The listing -/

/-- The names of the files in order, each followed by its lines of a listing; and the same when it is printed again. -/
def PrintsListing (getsource : GetSource) (getline : Text → Nat → Text) (showTime : Int → Text) (p : SimpleProfile) : Prop :=
  ∃ lines : List CallResult, IsListing getsource p lines ∧
    ∃ files : List Text, files.Pairwise (· < ·) ∧ (∀ file, file ∈ files ↔ file ∈ lines.map CallResult.filename) ∧
      (p.printResult getline showTime).1 = (files.flatMap (fileLines getline showTime lines), .ok ()) ∧
      ((p.printResult getline showTime).2.printResult getline showTime).1 = (p.printResult getline showTime).1

theorem printResult_of_ok {lines : List CallResult} (h : p.getLines.1 = .ok lines) :
    p.printResult getline showTime = ((printLines getline showTime none lines, .ok ()), p.getLines.2) := by
  have heq : p.getLines = (.ok lines, p.getLines.2) := Prod.ext h rfl
  rw [printResult, heq]

theorem printResult_of_error {e : Exc} (h : p.getLines.1 = .error e) :
    p.printResult getline showTime = (([], .error e), p.getLines.2) := by
  have heq : p.getLines = (.error e, p.getLines.2) := Prod.ext h rfl
  rw [printResult, heq]

/-- The lines are the same when they are asked for again. -/
theorem getLines_again (h : Reachable getsource p) (hlist : Listable getsource p) :
    ∃ lines, p.getLines.1 = .ok lines ∧ IsListing getsource p lines ∧ p.getLines.2.getLines.1 = .ok lines := by
  obtain ⟨hdistinct, hsourced⟩ := h.inv
  obtain ⟨hdistinct', hsourced'⟩ := h.getLines.inv
  obtain ⟨hok, hfilled⟩ := filled hdistinct hsourced hlist
  obtain ⟨hok', hfilled'⟩ := filled hdistinct' hsourced' ⟨hlist.source, hlist.memory⟩
  refine ⟨_, ?_, isListing hdistinct hfilled, ?_⟩
  · rw [getLines_eq hdistinct, hok]
    rfl
  · rw [getLines_eq hdistinct', hok', ← getLines_getLines hdistinct hfilled hfilled']
    rfl

/-- `get_lines` raises before anything is printed. -/
theorem getLines_raises (h : Reachable getsource p) (hlist : ¬ Listable getsource p) : ∃ e, p.getLines.1 = .error e := by
  obtain ⟨hdistinct, hsourced⟩ := h.inv
  rw [getLines_eq hdistinct]
  cases hfound : (foundLines p).1 with
  | ok => exact absurd (listable_of_ok hsourced hfound) hlist
  | error e => exact ⟨e, rfl⟩

/-- The whole listing is printed, each file once and in order, exactly if the lines can be filled in, and else nothing. -/
theorem printResult_iff (h : Reachable getsource p) (getline : Text → Nat → Text) (showTime : Int → Text) :
    (PrintsListing getsource getline showTime p ↔ Listable getsource p) ∧
      (¬ Listable getsource p → ∃ e, (p.printResult getline showTime).1 = ([], .error e)) := by
  have hraises : ¬ Listable getsource p → ∃ e, (p.printResult getline showTime).1 = ([], .error e) := by
    intro hlist
    obtain ⟨e, herror⟩ := getLines_raises h hlist
    exact ⟨e, by rw [printResult_of_error herror]⟩
  refine ⟨⟨?_, fun hlist => ?_⟩, hraises⟩
  · rintro ⟨lines, -, files, -, -, hprinted, -⟩
    by_contra hlist
    obtain ⟨e, herror⟩ := hraises hlist
    rw [herror] at hprinted
    cases congrArg Prod.snd hprinted
  · obtain ⟨lines, hlines, hlisting, hagain⟩ := getLines_again h hlist
    obtain ⟨files, hincreasing, hmem, heq⟩ := printLines_sorted getline showTime hlisting.increasing
    refine ⟨lines, hlisting, files, hincreasing, hmem, ?_, ?_⟩
    · rw [printResult_of_ok hlines, heq]
    · rw [printResult_of_ok hlines, printResult_of_ok hagain]

/-- A handler that has not been called. -/
def handlerProfile : SimpleProfile := (addTarget handlerSource (some handlerCode) {}).2

theorem handler_printed :
    PrintsListing handlerSource (fun _ _ => literal "    pass\n") (fun _ => []) handlerProfile ∧
      (handlerProfile.printResult (fun _ _ => literal "    pass\n") fun _ => []).1 =
        ([literal "--> app.py", literal "11:     pass"], .ok ()) := by
  have hreachable : Reachable handlerSource handlerProfile := .addTarget _ (.init 1 false)
  refine ⟨(printResult_iff hreachable _ _).1.mpr ⟨fun code _ => nofun, fun h => nomatch h⟩, ?_⟩
  decide

end Levin.SimpleProfile
