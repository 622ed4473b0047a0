/-
What segments show, character by character: two lists of segments show the same when they differ only in
how visible text is cut. Stretches of text become segments one after the other, and a visible stretch may
be cut anywhere (`shown_visible_append`).
-/
import ModelStream.InlineTag

namespace ModelStream.InlineTag

open Text

/-- A visible character, or a whole piece of reasoning. -/
inductive Mark
  | char (c : Char)
  | reasoning (text : String)
  deriving Repr, DecidableEq

def Segment.marks : Segment → List Mark
  | .visible text => text.toList.map .char
  | .reasoning text => [.reasoning text]

/-- What segments show. -/
def marks (segments : List Segment) : List Mark := segments.flatMap Segment.marks

@[simp] theorem marks_nil : marks [] = [] := rfl

theorem marks_cons (segment : Segment) (segments : List Segment) :
    marks (segment :: segments) = segment.marks ++ marks segments := rfl

@[simp] theorem marks_append (segments later : List Segment) :
    marks (segments ++ later) = marks segments ++ marks later := List.flatMap_append

/-- The text of a visible segment. -/
def Segment.visible? : Segment → Option String
  | .visible text => some text
  | .reasoning _ => none

def Mark.char? : Mark → Option Char
  | .char c => some c
  | .reasoning _ => none

/-- The visible text among marks. -/
def visible (marks : List Mark) : String := String.ofList (marks.filterMap Mark.char?)

@[simp] theorem visible_append (marks later : List Mark) : visible (marks ++ later) = visible marks ++ visible later := by
  rw [visible, List.filterMap_append, String.ofList_append]
  rfl

theorem visible_marks (segments : List Segment) :
    visible (marks segments) = String.join (segments.filterMap Segment.visible?) := by
  induction segments with
  | nil => rfl
  | cons segment segments ih =>
    rw [marks_cons, visible_append, ih]
    cases segment with
    | visible text =>
      simp [visible, Segment.visible?, Segment.marks, List.filterMap_map, Function.comp_def, Mark.char?]
    | reasoning text => exact String.empty_append ..

/-! ## Stretches -/

/-- What stretches show; `drop` says whether blanks are dropped at first. -/
def shown (drop : Bool) (stretches : List Stretch) : List Mark := marks (Scanner.segments drop stretches).1

/-- Whether blanks are dropped after these stretches. -/
def dropping (drop : Bool) (stretches : List Stretch) : Bool := (Scanner.segments drop stretches).2

/-- What is left of a visible stretch. -/
def kept (drop : Bool) (cs : List Char) : List Char := if drop then trimStart cs else cs

theorem segments_visible (drop : Bool) (cs : List Char) (more : List Stretch) :
    Scanner.segments drop (.visible cs :: more) =
      if (kept drop cs).isEmpty then Scanner.segments drop more
      else (.visible (String.ofList (kept drop cs)) :: (Scanner.segments false more).1,
        (Scanner.segments false more).2) := rfl

theorem segments_append (stretches later : List Stretch) (drop : Bool) :
    Scanner.segments drop (stretches ++ later) =
      ((Scanner.segments drop stretches).1 ++ (Scanner.segments (dropping drop stretches) later).1,
        dropping (dropping drop stretches) later) := by
  induction stretches generalizing drop with
  | nil => rfl
  | cons stretch stretches ih =>
    cases stretch with
    | visible cs =>
      simp only [List.cons_append, segments_visible, dropping, ih]
      split <;> rfl
    | reasoning cs =>
      simp only [List.cons_append, Scanner.segments, dropping, ih]
      cases (trim cs).isEmpty <;> rfl

theorem segments_cons (stretch : Stretch) (stretches : List Stretch) (drop : Bool) :
    Scanner.segments drop (stretch :: stretches) =
      ((Scanner.segments drop [stretch]).1 ++ (Scanner.segments (dropping drop [stretch]) stretches).1,
        dropping (dropping drop [stretch]) stretches) :=
  segments_append [stretch] stretches drop

theorem shown_append (stretches later : List Stretch) (drop : Bool) :
    shown drop (stretches ++ later) = shown drop stretches ++ shown (dropping drop stretches) later := by
  simp [shown, segments_append]

theorem dropping_append (stretches later : List Stretch) (drop : Bool) :
    dropping drop (stretches ++ later) = dropping (dropping drop stretches) later := by
  rw [dropping, segments_append]

theorem shown_cons (stretch : Stretch) (stretches : List Stretch) (drop : Bool) :
    shown drop (stretch :: stretches) = shown drop [stretch] ++ shown (dropping drop [stretch]) stretches :=
  shown_append [stretch] stretches drop

theorem dropping_cons (stretch : Stretch) (stretches : List Stretch) (drop : Bool) :
    dropping drop (stretch :: stretches) = dropping (dropping drop [stretch]) stretches :=
  dropping_append [stretch] stretches drop

theorem shown_visible (drop : Bool) (cs : List Char) : shown drop [.visible cs] = (kept drop cs).map .char := by
  rw [shown, segments_visible]
  cases h : kept drop cs with
  | nil => rfl
  | cons c rest => simp [Scanner.segments, marks_cons, Segment.marks]

theorem dropping_visible (drop : Bool) (cs : List Char) :
    dropping drop [.visible cs] = (drop && (trimStart cs).isEmpty) := by
  rw [dropping, segments_visible, kept]
  cases drop with
  | false => cases cs <;> rfl
  | true => cases trimStart cs <;> rfl

/-- A visible stretch may be cut. -/
theorem shown_visible_append (first second : List Char) (drop : Bool) :
    shown drop [.visible (first ++ second)] = shown drop [.visible first, .visible second] ∧
      dropping drop [.visible (first ++ second)] = dropping drop [.visible first, .visible second] := by
  have hcons : ([.visible first, .visible second] : List Stretch) = [.visible first] ++ [.visible second] := rfl
  rw [hcons, shown_append, dropping_append]
  simp only [shown_visible, dropping_visible, kept, trimStart, List.dropWhile_append]
  cases drop with
  | false => simp
  | true => cases h : List.dropWhile isBlank first <;> simp

end ModelStream.InlineTag
