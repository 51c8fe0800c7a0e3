import PawnScope.Proofs.Text.Pieces
import PawnScope.Source.Line
/-!
Reading a text line by line, cut into parts. All that one part hands to the next is how many braces and
which comment are open, so a part can be read by itself: `readAll_append`, `ofText_append`. What is read
of a line does not depend on its number: `readAll_down`.
-/

namespace PawnScope

/-- What is open between two lines. -/
structure Opened where
  depth : Nat
  comment : OpenComment
deriving DecidableEq, Repr

namespace Opened

variable [Alphabets]

def nothing : Opened :=
  ⟨0, .none⟩

/-- What is open after one more written line. -/
def next (opened : Opened) (raw : Text) : Opened :=
  let read := Line.ofRaw 0 opened.depth opened.comment (Line.withoutReturn raw)
  ⟨Line.braceDepth opened.depth (Token.ofLine read.1.code), read.2⟩

/-- What is open after written lines. -/
def after (opened : Opened) (raws : List Text) : Opened :=
  raws.foldl next opened

end Opened

namespace Line

theorem braceDepth_append (depth : Nat) (tokens more : List Token) :
    braceDepth depth (tokens ++ more) = braceDepth (braceDepth depth tokens) more :=
  List.foldl_append

theorem braceDepth_cons (depth : Nat) (token : Token) (tokens : List Token) :
    braceDepth depth (token :: tokens) = braceDepth (braceDepth depth [token]) tokens :=
  rfl

theorem braceDepth_of_no_braces {tokens : List Token}
    (plain : ∀ token ∈ tokens, token.kind ≠ .openBrace ∧ token.kind ≠ .closeBrace) (depth : Nat) :
    braceDepth depth tokens = depth := by
  induction tokens with
  | nil => rfl
  | cons token rest ih =>
    obtain ⟨opens, closes⟩ := plain token List.mem_cons_self
    have behind := ih fun other member => plain other (List.mem_cons_of_mem _ member)
    simpa [braceDepth, opens, closes] using behind

variable [Alphabets]

/-- What is open where the line `index` of a text begins, or at its end if it has no such line. -/
def openedAt (text : Text) (index : Nat) : Opened :=
  Opened.nothing.after ((Text.split '\n' text).take index)

/-- What is open at the end of a text. -/
def openedAfter (text : Text) : Opened :=
  Opened.nothing.after (Text.split '\n' text)

/-- Written lines, read where `opened` is open. -/
def readFrom (number : Nat) (opened : Opened) (raws : List Text) : List Line :=
  readAll number opened.depth opened.comment raws

/-- The same line, `count` lines further down. -/
def down (count : Nat) (line : Line) : Line :=
  { line with number := line.number + count }

variable {opened : Opened} {raws more : List Text} {line : Line} {number : Nat}

theorem readFrom_cons (number : Nat) (opened : Opened) (raw : Text) (rest : List Text) :
    readFrom number opened (raw :: rest) =
      (ofRaw number opened.depth opened.comment (withoutReturn raw)).1 ::
        readFrom (number + 1) (opened.next raw) rest :=
  rfl

theorem readFrom_append (number : Nat) (opened : Opened) (raws more : List Text) :
    readFrom number opened (raws ++ more) =
      readFrom number opened raws ++ readFrom (number + raws.length) (opened.after raws) more := by
  induction raws generalizing number opened with
  | nil => rfl
  | cons raw rest ih =>
    have place : number + (raw :: rest).length = number + 1 + rest.length := by
      rw [List.length_cons]
      omega
    rw [List.cons_append, readFrom_cons, readFrom_cons, ih, place]
    rfl

theorem length_readFrom (number : Nat) (opened : Opened) (raws : List Text) :
    (readFrom number opened raws).length = raws.length := by
  induction raws generalizing number opened with
  | nil => rfl
  | cons raw rest ih => rw [readFrom_cons, List.length_cons, ih, List.length_cons]

theorem take_readFrom (number : Nat) (opened : Opened) (raws : List Text) (index : Nat) :
    (readFrom number opened raws).take index = readFrom number opened (raws.take index) := by
  induction raws generalizing number opened index with
  | nil => simp [readFrom, readAll]
  | cons raw rest ih =>
    cases index with
    | zero => rfl
    | succ index =>
      rw [readFrom_cons, List.take_succ_cons, List.take_succ_cons, readFrom_cons, ih]

theorem drop_readFrom (number : Nat) (opened : Opened) (raws : List Text) (index : Nat) :
    (readFrom number opened raws).drop index =
      readFrom (number + min index raws.length) (opened.after (raws.take index))
        (raws.drop index) := by
  induction raws generalizing number opened index with
  | nil => simp [readFrom, readAll]
  | cons raw rest ih =>
    cases index with
    | zero => simp [Opened.after]
    | succ index =>
      have place : number + min (index + 1) (rest.length + 1) =
          number + 1 + min index rest.length := by omega
      rw [readFrom_cons, List.drop_succ_cons, ih, List.length_cons, place]
      rfl

/-- Lines further down are read in the same way. -/
theorem readFrom_down (number count : Nat) (opened : Opened) (raws : List Text) :
    readFrom (number + count) opened raws = (readFrom number opened raws).map (down count) := by
  induction raws generalizing number opened with
  | nil => rfl
  | cons raw rest ih =>
    rw [readFrom_cons, readFrom_cons, List.map_cons, ← ih, Nat.add_right_comm]
    rfl

theorem ofText_eq (text : Text) : ofText text = readFrom 0 .nothing (Text.split '\n' text) :=
  rfl

theorem length_ofText (text : Text) : (ofText text).length = (Text.split '\n' text).length := by
  rw [ofText_eq, length_readFrom]

theorem number_readFrom {index : Nat} (found : (readFrom number opened raws)[index]? = some line) :
    line.number = number + index := by
  induction raws generalizing number opened index with
  | nil => simp [readFrom, readAll] at found
  | cons raw rest ih =>
    rw [readFrom_cons] at found
    cases index with
    | zero =>
      obtain rfl := Option.some.inj found
      rfl
    | succ index =>
      rw [List.getElem?_cons_succ] at found
      rw [ih found]
      omega

theorem raw_readFrom (number : Nat) (opened : Opened) (raws : List Text) :
    (readFrom number opened raws).map raw = raws.map withoutReturn := by
  induction raws generalizing number opened with
  | nil => rfl
  | cons raw rest ih =>
    rw [readFrom_cons, List.map_cons, List.map_cons, ih]
    rfl

/-- How a line ends does not matter for what is read. -/
theorem readFrom_congr (same : raws.map withoutReturn = more.map withoutReturn) (number : Nat)
    (opened : Opened) :
    readFrom number opened raws = readFrom number opened more ∧
      opened.after raws = opened.after more := by
  induction raws generalizing more number opened with
  | nil =>
    obtain rfl := List.map_eq_nil_iff.mp same.symm
    exact ⟨rfl, rfl⟩
  | cons raw rest ih =>
    cases more with
    | nil => simp at same
    | cons other more =>
      obtain ⟨here, behind⟩ := List.cons.inj same
      have next : opened.next raw = opened.next other := by
        rw [Opened.next, here, Opened.next]
      obtain ⟨lines, after⟩ := ih behind (number + 1) (opened.next other)
      rw [readFrom_cons, readFrom_cons, here, next, lines]
      exact ⟨rfl, by rw [Opened.after, List.foldl_cons, ← Opened.after, next, after]; rfl⟩

theorem number_ofText {text : Text} {index : Nat} (found : (ofText text)[index]? = some line) :
    line.number = index := by
  rw [ofText_eq] at found
  rw [number_readFrom found, Nat.zero_add]

theorem getElem?_number {text : Text} (member : line ∈ ofText text) :
    (ofText text)[line.number]? = some line := by
  obtain ⟨index, found⟩ := List.mem_iff_getElem?.mp member
  rwa [number_ofText found]

theorem raw_ofText (text : Text) :
    (ofText text).map raw = (Text.split '\n' text).map withoutReturn :=
  raw_readFrom 0 .nothing _

/-- The lines of a text above one of them. -/
theorem take_ofText (text : Text) (index : Nat) :
    (ofText text).take index = readFrom 0 .nothing ((Text.split '\n' text).take index) :=
  take_readFrom 0 .nothing _ index

/-- The lines of a text from one of them on. -/
theorem drop_ofText (text : Text) (index : Nat) :
    (ofText text).drop index =
      readFrom (min index (ofText text).length) (openedAt text index)
        ((Text.split '\n' text).drop index) := by
  rw [ofText_eq, drop_readFrom, length_readFrom, Nat.zero_add]
  rfl

/-- A line of a text is what is written there, read with what is open above it. -/
theorem exists_ofRaw {text : Text} {index : Nat} (found : (ofText text)[index]? = some line) :
    ∃ raw, (Text.split '\n' text)[index]? = some raw ∧
      line = (ofRaw index (openedAt text index).depth (openedAt text index).comment
        (withoutReturn raw)).1 := by
  have short := (List.getElem?_eq_some_iff.mp found).1
  have first : ((ofText text).drop index).head? = some line := by
    rw [List.head?_drop, found]
  rw [drop_ofText, Nat.min_eq_left (Nat.le_of_lt short)] at first
  cases raws : (Text.split '\n' text).drop index with
  | nil =>
    rw [raws] at first
    contradiction
  | cons raw rest =>
    rw [raws, readFrom_cons] at first
    refine ⟨raw, ?_, (Option.some.inj first).symm⟩
    rw [← List.head?_drop, raws]
    rfl

theorem openedAt_succ {text raw : Text} {index : Nat} (found : (Text.split '\n' text)[index]? = some raw) :
    openedAt text (index + 1) = (openedAt text index).next raw := by
  have parts : (Text.split '\n' text).take (index + 1) = (Text.split '\n' text).take index ++ [raw] := by
    rw [List.take_add_one, found]
    rfl
  rw [openedAt, parts]
  exact List.foldl_append

/-- A text below another one is read as if it stood by itself, if nothing is open above it. -/
theorem ofText_append {a : Text} (closed : openedAfter a = .nothing) (b : Text) :
    ofText (a ++ '\n' :: b) = ofText a ++ (ofText b).map (down (ofText a).length) := by
  have above : Opened.nothing.after (Text.split '\n' a) = .nothing := closed
  rw [ofText_eq, Text.split_append_cons, readFrom_append, above, ← ofText_eq, length_ofText,
    readFrom_down, ← ofText_eq]

end Line

end PawnScope
