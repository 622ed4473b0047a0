/-
Reasoning that models write between tags inside visible text, as in `<think>…</think>`. The scanner
takes the text in pieces. It splits it into visible segments and reasoning segments, and holds back
what a later piece may still turn into a tag. After a closing tag the blanks before the next visible
text are dropped.
-/
import ModelStream.Fault
import ModelStream.Text.Blank

namespace ModelStream

open Text

structure InlineTag where
  name : List Char
  deriving Repr, DecidableEq

namespace InlineTag

def opening (t : InlineTag) : List Char := '<' :: t.name ++ ['>']

def closing (t : InlineTag) : List Char := '<' :: '/' :: t.name ++ ['>']

def defaultNames : List String := ["think", "thinking", "reasoning"]

/-- The tags with these names, blanks around a name apart; blank names are left out. -/
def ofNames (names : List String) : List InlineTag :=
  (names.map fun n => ⟨trim n.toList⟩).filter (! ·.name.isEmpty)

inductive Segment
  | visible (text : String)
  | reasoning (text : String)
  deriving Repr, DecidableEq

/-- Where the scanner stands. Characters are kept newest first. -/
inductive Place
  /-- Outside of all tags, after characters that no segment holds yet. -/
  | outside (run : List Char)
  /-- Behind an opening tag, after the characters `body`. -/
  | inside (tag : InlineTag) (body : List Char)
  deriving Repr, DecidableEq

/-- A stretch of text between two tags, as it stands in the text. -/
inductive Stretch
  | visible (cs : List Char)
  | reasoning (cs : List Char)
  deriving Repr, DecidableEq

/-! ## Finding tags -/

/-- The tag whose opening stands at the front of the text, the first of the list if there are
several. -/
def opened? (tags : List InlineTag) (text : List Char) : Option InlineTag :=
  match text with
  | '<' :: _ => tags.find? fun t => t.opening.isPrefixOf text
  | _ => none

/-- Scans text from a place: the stretches that tags end, and the place reached. The first `skip`
characters belong to an opening tag that has been recognized. -/
def scan (tags : List InlineTag) : Nat → Place → List Char → List Stretch × Place
  | _, place, [] => ([], place)
  | skip + 1, place, _ :: cs => scan tags skip place cs
  | 0, .outside run, c :: cs =>
    match opened? tags (c :: cs) with
    | some t =>
      let (found, place) := scan tags (t.opening.length - 1) (.inside t []) cs
      (.visible run.reverse :: found, place)
    | none => scan tags 0 (.outside (c :: run)) cs
  | 0, .inside t body, c :: cs =>
    if c == '>' && t.closing.reverse.isPrefixOf (c :: body) then
      let (found, place) := scan tags 0 (.outside []) cs
      (.reasoning ((c :: body).drop t.closing.length).reverse :: found, place)
    else scan tags 0 (.inside t (c :: body)) cs

/-- The end of a run that may still become a tag: from its last `<` on, if no `>` follows and if it
begins like a closing tag or like an opening tag of the list. -/
def undecided (tags : List InlineTag) (run : List Char) : List Char :=
  let tail := run.takeWhile (· != '<')
  if tail.length == run.length || tail.contains '>' then []
  else
    let tail := '<' :: tail.reverse
    if "</".toList.isPrefixOf tail || tags.any fun t => tail.isPrefixOf t.opening then tail else []

/-! ## The scanner -/

structure Scanner where
  tags : List InlineTag
  place : Place := .outside []
  /-- Blanks before the next visible text are dropped. -/
  dropBlanks : Bool := false
  deriving Repr, DecidableEq

namespace Scanner

/-- The scanner for tags with these names, of which one has to be usable. Usable names always make a scanner,
however many and however long they are: tags are compared as they stand, and no pattern is compiled from them
that could grow too large. -/
def ofNames (names : List String) : Except Fault Scanner :=
  match InlineTag.ofNames names with
  | [] => .error (.configuration "at least one reasoning tag name is required")
  | tags => .ok { tags }

/-- The segments of stretches; `drop` says whether blanks are dropped. -/
def segments (drop : Bool) : List Stretch → List Segment × Bool
  | [] => ([], drop)
  | .visible cs :: more =>
    let text := if drop then trimStart cs else cs
    if text.isEmpty then segments drop more
    else
      let (rest, drop) := segments false more
      (.visible (String.ofList text) :: rest, drop)
  | .reasoning cs :: more =>
    let text := trim cs
    let (rest, drop) := segments true more
    (if text.isEmpty then rest else .reasoning (String.ofList text) :: rest, drop)

/-- Adds a piece of text: the segments that it decides. -/
def push (s : Scanner) (text : String) : List Segment × Scanner :=
  let (held, start) : List Char × Place := match s.place with
    | .outside run => (run.reverse, .outside [])
    | .inside t body => ([], .inside t body)
  let (found, place) := scan s.tags 0 start (held ++ text.toList)
  match place with
  | .outside run =>
    let held := undecided s.tags run
    let safe := run.reverse.take (run.length - held.length)
    let (out, drop) := segments s.dropBlanks (found ++ [.visible safe])
    (out, { s with place := .outside held.reverse, dropBlanks := drop })
  | .inside .. =>
    let (out, drop) := segments s.dropBlanks found
    (out, { s with place, dropBlanks := drop })

/-- A body without the longest piece at its end that begins the closing tag. -/
def withoutCut (t : InlineTag) (body : List Char) : List Char :=
  let cut := (List.range t.closing.length).reverse.find? fun n =>
    0 < n && (t.closing.take n).reverse.isPrefixOf body
  (body.drop (cut.getD 0)).reverse

/-- The end of the text: what was held back is visible, an open body is reasoning. -/
def finish (s : Scanner) : List Segment × Scanner :=
  match s.place with
  | .outside run =>
    let (out, drop) := segments s.dropBlanks [.visible run.reverse]
    (out, { s with place := .outside [], dropBlanks := drop })
  | .inside t body =>
    let text := trim (withoutCut t body)
    (if text.isEmpty then [] else [.reasoning (String.ofList text)], { s with place := .outside [] })

end Scanner

end InlineTag

end ModelStream
