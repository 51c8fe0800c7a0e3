import PawnScope.Identifier.European
import PawnScope.Proofs.Source.Defines
import PawnScope.Proofs.Source.Docs
/-!
The documentation of what a text declares. A doc comment belongs to the statement that it stands
directly before; the reader of lines finds it there unless it ends on a line that another statement goes
on over, or one more doc comment ends on the line of the statement: `Outline.ofText_documentation`.
-/

namespace PawnScope

/-! ## The body of a doc comment -/

namespace Doc

theorem cleanLine_append_blanks {blanks : Text} (blank : ∀ c ∈ blanks, isBlank c = true) (line : Text) :
    cleanLine (line ++ blanks) = cleanLine line := by
  rw [cleanLine, cleanLine, Text.trim_append_blanks blank]

/-- Blanks before a line break are not kept. -/
theorem clean_before_break {blanks : Text} (blank : ∀ c ∈ blanks, isBlank c = true) (apart : '\n' ∉ blanks)
    (body more : Text) : clean (body ++ blanks ++ '\n' :: more) = clean (body ++ '\n' :: more) := by
  obtain ⟨front, last, whole, whole'⟩ : ∃ front last, Text.split '\n' body = front ++ [last] ∧
      Text.split '\n' (body ++ blanks) = front ++ [last ++ blanks] := by
    induction body with
    | nil => exact ⟨[], [], rfl, Text.split_of_not_mem apart⟩
    | cons c body ih =>
      obtain ⟨front, last, whole, whole'⟩ := ih
      rw [List.cons_append, Text.split, Text.split, whole, whole']
      by_cases line : c = '\n'
      · rw [if_pos line, if_pos line]
        exact ⟨[] :: front, last, rfl, rfl⟩
      · rw [if_neg line, if_neg line]
        cases front with
        | nil => exact ⟨[], c :: last, rfl, rfl⟩
        | cons first front => exact ⟨(c :: first) :: front, last, rfl, rfl⟩
  rw [clean, clean, Text.split_append_cons, Text.split_append_cons, whole, whole']
  simp only [List.map_append, List.map_cons, cleanLine_append_blanks blank]

/-- Bodies that come to the same text, whatever follows. -/
def SameBody (body other : Text) : Prop :=
  ∀ more, clean (body ++ more) = clean (other ++ more)

theorem SameBody.append {body other : Text} (same : SameBody body other) (text : Text) :
    SameBody (body ++ text) (other ++ text) := by
  intro more
  rw [List.append_assoc, List.append_assoc, same]

theorem SameBody.clean_eq {body other : Text} (same : SameBody body other) : clean body = clean other := by
  have whole := same []
  rwa [List.append_nil, List.append_nil] at whole

/-! ## A line -/

/-- Read characters of a line for doc comments. -/
def Reading.run (letters : List Letter) (reading : Reading) : Reading :=
  letters.foldl (fun reading letter => reading.step letter.1 letter.2) reading

theorem Reading.run_append (front rest : List Letter) (reading : Reading) :
    reading.run (front ++ rest) = (reading.run front).run rest :=
  List.foldl_append

/-- Both readers have come to a doc comment that ended on the line `number`. -/
def Ended (number : Nat) (reading : Reading) (trail : Trail) : Prop :=
  ∃ body, reading.ended = some ⟨clean body, reading.sawCode⟩ ∧ trail.closed = some (body, number)

/-- The reader of a line and the reader of the text, which knew of `before` where the line begins. -/
structure Agree (number : Nat) (before : Option (Text × Nat)) (reading : Reading) (trail : Trail) : Prop where
  place : trail.number = number
  body : SameBody trail.body reading.body
  blank : reading.sawCode = false →
    (reading.ended = none ∧ trail.closed = before) ∨ Ended number reading trail
  code : reading.sawCode = true → trail.closed = none ∨ Ended number reading trail

variable {number : Nat} {before : Option (Text × Nat)} {reading : Reading} {trail : Trail}

theorem Agree.step (agree : Agree number before reading trail) {letter : Letter} (apart : letter.1 ≠ '\n') :
    Agree number before (reading.step letter.1 letter.2) (trail.step letter) := by
  obtain ⟨c, region⟩ := letter
  have place (region : Region) : (trail.step (c, region)).number = number := by
    have same : (if c = '\n' then trail.number + 1 else trail.number) = number :=
      (if_neg apart).trans agree.place
    cases region <;> exact same
  have code : ∀ region ∈ [Region.code, .literal],
      Agree number before (reading.step c region) (trail.step (c, region)) := by
    intro region kept
    obtain ⟨read, gone⟩ : reading.step c region = { reading with sawCode := reading.sawCode || !isBlank c } ∧
        trail.step (c, region) = ⟨(trail.step (c, region)).number, trail.body,
          if isBlank c then trail.closed else none⟩ := by
      rcases List.mem_pair.mp kept with rfl | rfl <;> exact ⟨rfl, rfl⟩
    rw [read, gone]
    cases solid : isBlank c with
    | true =>
      rw [Bool.not_true, Bool.or_false, if_pos rfl]
      exact ⟨place _, agree.body, agree.blank, agree.code⟩
    | false =>
      rw [Bool.not_false, Bool.or_true, if_neg Bool.false_ne_true]
      exact ⟨place _, agree.body, fun blank => absurd blank.symm Bool.false_ne_true, fun _ => .inl rfl⟩
  cases region with
  | code => exact code _ (by simp)
  | literal => exact code _ (by simp)
  | comment => exact ⟨place _, agree.body, agree.blank, agree.code⟩
  | docBody => exact ⟨place _, agree.body.append [c], agree.blank, agree.code⟩
  | docEnd =>
    have ended : Ended number (reading.step c .docEnd) (trail.step (c, .docEnd)) :=
      ⟨trail.body, by rw [agree.body.clean_eq]; rfl, by rw [← agree.place]; rfl⟩
    exact ⟨place _, fun _ => rfl, fun _ => .inr ended, fun _ => .inr ended⟩

theorem Agree.run (agree : Agree number before reading trail) {letters : List Letter}
    (apart : ∀ letter ∈ letters, letter.1 ≠ '\n') :
    Agree number before (reading.run letters) (trail.run letters) := by
  induction letters generalizing reading trail with
  | nil => exact agree
  | cons letter letters ih =>
    obtain ⟨here, behind⟩ := List.forall_mem_cons.mp apart
    exact ih (agree.step here) behind

/-! ## Code on a line -/

/-- What is shown of a character in the code of its line. -/
def shown (letter : Letter) : Char :=
  if letter.2.isKept then letter.1 else ' '

/-- Whether code other than blanks stands among the characters. -/
def hasCode (letters : List Letter) : Bool :=
  letters.any fun letter => !isBlank (shown letter)

theorem blankComments_eq_map (text : Text) (regions : List Region) :
    blankComments text regions = (text.zip regions).map shown := by
  rw [List.zip_eq_zipWith, List.map_zipWith]
  rfl

theorem allBlank_shown (letters : List Letter) : Text.allBlank (letters.map shown) = !hasCode letters := by
  rw [Text.allBlank, hasCode, List.all_map, List.not_any_eq_all_not]
  simp [Function.comp_def]

theorem sawCode_run (letters : List Letter) (reading : Reading) :
    (reading.run letters).sawCode = (reading.sawCode || hasCode letters) := by
  induction letters generalizing reading with
  | nil => exact (Bool.or_false _).symm
  | cons letter letters ih =>
    obtain ⟨c, region⟩ := letter
    have step : (reading.step c region).sawCode = (reading.sawCode || !isBlank (shown (c, region))) := by
      cases region <;> simp [Reading.step, shown, Region.isKept, show isBlank ' ' = true from rfl]
    rw [Reading.run, List.foldl_cons, ← Reading.run, ih, step, Bool.or_assoc]
    rfl

/-- Behind code every doc comment trails it. -/
theorem ended_of_sawCode (letters : List Letter) (saw : reading.sawCode = true) :
    (reading.run letters).ended = reading.ended ∨
      ∃ text, (reading.run letters).ended = some ⟨text, true⟩ := by
  induction letters generalizing reading with
  | nil => exact .inl rfl
  | cons letter letters ih =>
    obtain ⟨c, region⟩ := letter
    have saw' : (reading.step c region).sawCode = true := by cases region <;> simp [Reading.step, saw]
    rcases ih saw' with same | trails
    · by_cases ends : region = .docEnd
      · subst ends
        exact .inr ⟨_, same.trans (by rw [← saw]; rfl)⟩
      · refine .inl (same.trans ?_)
        cases region <;> first | rfl | contradiction
    · exact .inr trails

theorem ended_of_code {letter : Letter} (solid : hasCode [letter] = true) (letters : List Letter)
    (reading : Reading) : (reading.run (letter :: letters)).ended = reading.ended ∨
      ∃ text, (reading.run (letter :: letters)).ended = some ⟨text, true⟩ := by
  obtain ⟨c, region⟩ := letter
  have saw : (reading.step c region).sawCode = true := by
    have same := sawCode_run [(c, region)] reading
    rwa [solid, Bool.or_true] at same
  have same : (reading.step c region).ended = reading.ended := by
    cases region <;> first | rfl | contradiction
  rw [← same]
  exact ended_of_sawCode letters saw

end Doc

/-! ## The lines of a text -/

namespace Progress

variable [Alphabets]

/-- The progress where the line `index` begins. -/
def upTo (progress : Progress) : List Line → Nat → Progress
  | line :: rest, index + 1 => (progress.next line rest).upTo rest index
  | _, _ => progress

theorem upTo_succ {lines : List Line} {index : Nat} {line : Line} (found : lines[index]? = some line)
    (progress : Progress) : progress.upTo lines (index + 1) =
      (progress.upTo lines index).next line (lines.drop (index + 1)) := by
  induction lines generalizing progress index with
  | nil => contradiction
  | cons first rest ih =>
    cases index with
    | zero =>
      obtain rfl := Option.some.inj found
      cases rest <;> rfl
    | succ index => exact ih found (progress.next first rest)

/-- An entry comes from the statement on one of the lines, with the doc comment that waits there. -/
theorem exists_of_mem_all {file : SourceId} {skipStatic : Bool} {progress : Progress} {lines : List Line}
    {entry : Entry} (member : entry ∈ progress.all file skipStatic lines) :
    ∃ (index : Nat) (line : Line), lines[index]? = some line ∧
      entry ∈ (progress.upTo lines index).entries file skipStatic line (lines.drop (index + 1)) := by
  induction lines generalizing progress with
  | nil => simp [all] at member
  | cons first rest ih =>
    rw [all] at member
    rcases List.mem_append.mp member with here | below
    · exact ⟨0, first, rfl, here⟩
    · obtain ⟨index, line, found, inside⟩ := ih below
      exact ⟨index + 1, line, found, inside⟩

end Progress

namespace Line

/-- The line `index` belongs to a statement that begins above it. -/
def Joined [Alphabets] (text : Text) (index : Nat) : Prop :=
  (Progress.start.upTo (ofText text) index).skip ≠ 0

/-- A statement begins on the line. -/
def Starts [Alphabets] (text : Text) (line : Line) : Prop :=
  ¬Joined text line.number ∧ line.code.allBlank = false

instance [Alphabets] (text : Text) (index : Nat) : Decidable (Joined text index) :=
  inferInstanceAs (Decidable (_ ≠ _))

/-- The line `above` is the last one above the line `index` on which a statement begins. -/
structure Precedes [Alphabets] (text : Text) (above : Line) (index : Nat) : Prop where
  inside : above ∈ ofText text
  before : above.number < index
  begins : above.Starts text
  last : ∀ line ∈ ofText text, above.number < line.number → line.number < index → ¬line.Starts text

/-- Where the statement on a line begins. -/
def statementStart (line : Line) : Position :=
  ⟨line.number, (line.code.takeWhile isBlank).length⟩

/--
The statement on the line has a doc comment with the body `body` before it, which ends on the line `index`,
with at most blanks, line breaks and other comments in between.
-/
def Follows (text : Text) (line : Line) (body : Text) (index : Nat) : Prop :=
  Doc.Closes ((letters text).take ((LineTable.ofText text).offset line.statementStart)) body index

/-- The doc comment of the statement on a line is the one directly before it. -/
structure Documented [Alphabets] (text : Text) (line : Line) (doc : Option Text) : Prop where
  /-- It ends on a line that no statement above goes on over, and none ends behind code on its own line. -/
  attached : ∀ body index, line.Follows text body index → ¬Joined text index →
    (index = line.number → line.trailingDoc = none) → doc = some (Doc.clean body)
  /-- Without one there is none, if none ends behind code on the line of the statement before. -/
  bare : (∀ body index, ¬line.Follows text body index) →
    (∀ above, Precedes text above line.number → above.trailingDoc = none) → doc = none

/-! ## Line by line -/

variable {text : Text} {index : Nat} {line : Line}

/-- What the characters above the line `index` have come to. -/
def trailTo (text : Text) (index : Nat) : Trail :=
  Trail.start.run (Mode.code.lettersOfLines ((Text.split '\n' text).take index))

theorem number_trailTo (short : index ≤ (Text.split '\n' text).length) :
    (trailTo text index).number = index := by
  have apart : ∀ raw ∈ (Text.split '\n' text).take index, '\n' ∉ raw := fun raw member =>
    Text.not_mem_of_mem_split (List.mem_of_mem_take member)
  rw [trailTo, Trail.number_run, Mode.lineFeeds_lettersOfLines apart, List.length_take, Nat.min_eq_left short]
  exact Nat.zero_add _

theorem leadingDoc_of_doc {clean : Text} {trails : Bool} (doc : line.doc = some ⟨clean, trails⟩) :
    line.leadingDoc = (if trails then none else some clean) ∧
      line.trailingDoc = if trails then some clean else none := by
  rw [leadingDoc, trailingDoc, doc]
  cases trails <;> exact ⟨rfl, rfl⟩

variable [Alphabets]

/-- What the characters of a line belong to. -/
def letters (text : Text) (line : Line) : List Letter :=
  line.raw.zip ((openedAt text line.number).comment.mode.regions line.raw)

/-- What a line ends in belongs to what is open behind it. -/
def endLetters (text : Text) (line : Line) (returns : Text) : List Letter :=
  (returns ++ ['\n']).map fun c => (c, ((openedAt text line.number).comment.mode.after line.raw).lineEnd)

/-- A line is read behind the lines above it. -/
theorem trailTo_succ (found : (ofText text)[index]? = some line) :
    ∃ returns, (∀ c ∈ returns, c = '\r') ∧ trailTo text (index + 1) =
      ((trailTo text index).run (line.letters text)).run (line.endLetters text returns) := by
  obtain ⟨raw, stands, rfl⟩ := exists_ofRaw found
  have parts : (Text.split '\n' text).take (index + 1) = (Text.split '\n' text).take index ++ [raw] := by
    rw [List.take_add_one, stands]
    rfl
  refine ⟨raw.drop (withoutReturn raw).length, fun c member => eq_return member, ?_⟩
  have lines := Mode.lettersOfLines_append .nothing ((Text.split '\n' text).take index) [raw]
  have opened : Opened.nothing.comment.mode = .code := rfl
  rw [opened] at lines
  rw [trailTo, parts, lines, Trail.run_append, Mode.lettersOfLines, Mode.lettersOfLines, List.append_nil,
    Mode.lettersOfRaw, Trail.run_append]
  rfl

theorem closed_trailTo_succ (found : (ofText text)[index]? = some line) :
    (trailTo text (index + 1)).closed = ((trailTo text index).run (line.letters text)).closed := by
  obtain ⟨returns, blank, same⟩ := trailTo_succ found
  rw [same]
  refine Trail.closed_run (List.forall_mem_map.mpr fun c member => ⟨Mode.lineEnd_ne _, fun _ => ?_⟩) _
  rcases List.mem_append.mp member with inside | feed
  · rw [blank c inside]
    rfl
  · rw [List.mem_singleton.mp feed]
    rfl

/--
What has come of the lines above the line `index`: the doc comment that waits there is the one that stands
directly before, but for the lines that belong to statements above.
-/
structure Tracked (text : Text) (index : Nat) : Prop where
  body : Doc.SameBody (trailTo text index).body (openedAt text index).comment.body
  attached : ∀ body last, (trailTo text index).closed = some (body, last) → ¬Joined text last →
    (Progress.start.upTo (ofText text) index).doc = some (Doc.clean body)
  bare : (trailTo text index).closed = none →
    (∀ above, Precedes text above index → above.trailingDoc = none) →
    (Progress.start.upTo (ofText text) index).doc = none
  joined : Joined text index → ∃ above, Precedes text above index ∧
    (Progress.start.upTo (ofText text) index).doc = above.trailingDoc

/-- What the reader of the line `index` has come to behind `letters`, with which it begins. -/
def readingOf (text : Text) (index : Nat) (letters : List Letter) : Doc.Reading :=
  .run letters ⟨(openedAt text index).comment.body, false, none⟩

/-- The readers agree over a line. -/
theorem Tracked.agree (tracked : Tracked text index) (found : (ofText text)[index]? = some line)
    {letters : List Letter} (apart : ∀ letter ∈ letters, letter.1 ≠ '\n') :
    Doc.Agree index (trailTo text index).closed (readingOf text index letters)
      ((trailTo text index).run letters) := by
  have short : index ≤ (Text.split '\n' text).length := by
    rw [← length_ofText]
    exact Nat.le_of_lt (List.getElem?_eq_some_iff.mp found).1
  have start : Doc.Agree index (trailTo text index).closed
      ⟨(openedAt text index).comment.body, false, none⟩ (trailTo text index) :=
    ⟨number_trailTo short, tracked.body, fun _ => .inl ⟨rfl, rfl⟩, fun saw => absurd saw Bool.false_ne_true⟩
  exact start.run apart

theorem apart_letters (member : line ∈ ofText text) : ∀ letter ∈ line.letters text, letter.1 ≠ '\n' := by
  obtain ⟨index, found⟩ := List.mem_iff_getElem?.mp member
  obtain ⟨raw, stands, rfl⟩ := exists_ofRaw found
  rintro ⟨c, region⟩ inside rfl
  exact not_mem_withoutReturn (Text.not_mem_of_mem_split (List.mem_of_getElem? stands))
    (List.of_mem_zip inside).1

theorem allBlank_code (member : line ∈ ofText text) :
    line.code.allBlank = !Doc.hasCode (line.letters text) := by
  rw [code_ofText member, Doc.blankComments_eq_map, Doc.allBlank_shown]
  rfl

theorem sawCode_readingOf (letters : List Letter) :
    (readingOf text index letters).sawCode = Doc.hasCode letters := by
  rw [readingOf, Doc.sawCode_run, Bool.false_or]

theorem doc_eq (found : (ofText text)[index]? = some line) :
    line.doc = (readingOf text index (line.letters text)).ended := by
  obtain ⟨raw, -, rfl⟩ := exists_ofRaw found
  rfl

theorem comment_next (found : (ofText text)[index]? = some line) :
    (openedAt text (index + 1)).comment =
      .ofMode ((openedAt text index).comment.mode.after line.raw)
        (readingOf text index (line.letters text)).body := by
  obtain ⟨raw, stands, rfl⟩ := exists_ofRaw found
  rw [openedAt_succ stands]
  rfl

/-- The doc comments of a line without code. -/
theorem Tracked.blank (tracked : Tracked text index) (found : (ofText text)[index]? = some line)
    (blank : line.code.allBlank = true) :
    (line.doc = none ∧ (trailTo text (index + 1)).closed = (trailTo text index).closed) ∨
      ∃ body, line.doc = some ⟨Doc.clean body, false⟩ ∧
        (trailTo text (index + 1)).closed = some (body, index) := by
  have member := List.mem_of_getElem? found
  have saw : (readingOf text index (line.letters text)).sawCode = false := by
    rw [sawCode_readingOf, ← Bool.not_eq_true', ← allBlank_code member, blank]
  rw [closed_trailTo_succ found, doc_eq found]
  rcases (tracked.agree found (apart_letters member)).blank saw with same | ⟨body, ended, closed⟩
  · exact .inl same
  · exact .inr ⟨body, saw ▸ ended, closed⟩

/-- The doc comments of a line with code. -/
theorem Tracked.code (tracked : Tracked text index) (found : (ofText text)[index]? = some line)
    (code : line.code.allBlank = false) :
    (trailTo text (index + 1)).closed = none ∨
      ∃ body, line.doc = some ⟨Doc.clean body, true⟩ ∧
        (trailTo text (index + 1)).closed = some (body, index) := by
  have member := List.mem_of_getElem? found
  have saw : (readingOf text index (line.letters text)).sawCode = true := by
    rw [sawCode_readingOf, ← Bool.not_eq_false', ← allBlank_code member, code]
  rw [closed_trailTo_succ found, doc_eq found]
  rcases (tracked.agree found (apart_letters member)).code saw with none | ⟨body, ended, closed⟩
  · exact .inl none
  · exact .inr ⟨body, saw ▸ ended, closed⟩

theorem knows_trailTo (text : Text) (index : Nat) (rest : Text) :
    (openedAt text index).comment.mode.Knows
      (Mode.code.lettersOfLines ((Text.split '\n' text).take index)) rest := by
  have start (rest : Text) : Opened.nothing.comment.mode.Knows [] rest :=
    ⟨rfl, fun _ _ closes => by cases closes⟩
  exact Mode.Knows.overLines ((Text.split '\n' text).take index) start rest

/-- The bodies agree behind the line. -/
theorem Tracked.body_next (tracked : Tracked text index) (found : (ofText text)[index]? = some line) :
    Doc.SameBody (trailTo text (index + 1)).body (openedAt text (index + 1)).comment.body := by
  have agree := tracked.agree found (apart_letters (List.mem_of_getElem? found))
  have comment := comment_next found
  obtain ⟨returns, blank, trail⟩ := trailTo_succ found
  obtain rfl := number_ofText found
  have outside := (knows_trailTo text (line.number + 1) []).inside
  -- A doc comment that is open goes on over the line end; without one no body is left.
  have goesOn (ends : ((openedAt text line.number).comment.mode.after line.raw).lineEnd = .docBody)
      (keeps : (openedAt text (line.number + 1)).comment.body =
        (readingOf text line.number (line.letters text)).body ++ ['\n']) :
      Doc.SameBody (trailTo text (line.number + 1)).body (openedAt text (line.number + 1)).comment.body := by
    intro more
    rw [trail, endLetters, ends, Trail.body_run, keeps, List.append_assoc, List.append_assoc,
      List.append_assoc, ← List.append_assoc, List.singleton_append]
    have blanks : ∀ c ∈ returns, isBlank c = true := fun c member => by
      rw [blank c member]
      rfl
    have apart : '\n' ∉ returns := fun member => absurd (blank _ member) (by decide)
    rw [Doc.clean_before_break blanks apart]
    exact agree.body _
  have bare (nothing : (trailTo text (line.number + 1)).body = [])
      (nothing' : (openedAt text (line.number + 1)).comment.body = []) :
      Doc.SameBody (trailTo text (line.number + 1)).body (openedAt text (line.number + 1)).comment.body := by
    rw [nothing, nothing']
    exact fun _ => rfl
  cases after : (openedAt text line.number).comment.mode.after line.raw with
  | opening left isDoc | block isDoc =>
    rw [comment, after] at outside
    cases isDoc with
    | true => exact goesOn (by rw [after]; rfl) (by rw [comment, after]; rfl)
    | false => exact bare outside (by rw [comment, after]; rfl)
  | code | literal | escaped | lineComment | closing =>
    rw [comment, after] at outside
    exact bare outside (by rw [comment, after]; rfl)

theorem Precedes.next {above : Line} (precedes : Precedes text above index)
    (found : (ofText text)[index]? = some line) (rests : ¬line.Starts text) :
    Precedes text above (index + 1) := by
  refine ⟨precedes.inside, Nat.lt_succ_of_lt precedes.before, precedes.begins,
    fun other member below short => ?_⟩
  rcases Nat.lt_succ_iff_lt_or_eq.mp short with short | same
  · exact precedes.last other member below short
  · obtain rfl : other = line := Option.some.inj ((getElem?_number member).symm.trans (same ▸ found))
    exact rests

theorem precedes_self (found : (ofText text)[index]? = some line) (begins : line.Starts text) :
    Precedes text line (index + 1) := by
  obtain rfl := number_ofText found
  refine ⟨List.mem_of_getElem? found, Nat.lt_succ_self _, begins, fun other _ below short => ?_⟩
  omega

/-- A line that belongs to a statement above leaves the doc comment that waits. -/
theorem doc_joined (found : (ofText text)[index]? = some line) (joined : Joined text index) :
    (Progress.start.upTo (ofText text) (index + 1)).doc = (Progress.start.upTo (ofText text) index).doc := by
  obtain ⟨skip, more⟩ := Nat.exists_eq_succ_of_ne_zero joined
  rw [Progress.upTo_succ found, Progress.next, more]

/-- On a line of its own a doc comment waits, or leaves the one that waits. -/
theorem upTo_blank (found : (ofText text)[index]? = some line) (alone : ¬Joined text index)
    (blank : line.code.allBlank = true) :
    Progress.start.upTo (ofText text) (index + 1) =
      ⟨0, line.leadingDoc <|> (Progress.start.upTo (ofText text) index).doc⟩ := by
  rw [Progress.upTo_succ found, Progress.next, not_not.mp alone]
  exact if_pos blank

/-- Behind a statement the doc comment waits that ended behind the code of its first line. -/
theorem doc_starts (found : (ofText text)[index]? = some line) (alone : ¬Joined text index)
    (code : line.code.allBlank = false) :
    (Progress.start.upTo (ofText text) (index + 1)).doc = line.trailingDoc := by
  rw [Progress.upTo_succ found, Progress.next, not_not.mp alone]
  simp [code]

/-- Over a line that belongs to a statement above. -/
theorem Tracked.next_joined (tracked : Tracked text index) (found : (ofText text)[index]? = some line)
    (joined : Joined text index) : Tracked text (index + 1) := by
  obtain rfl := number_ofText found
  have rests : ¬line.Starts text := fun begins => begins.1 joined
  have waits := doc_joined found joined
  have ends : ∀ body last, (trailTo text (line.number + 1)).closed = some (body, last) → ¬Joined text last →
      (trailTo text line.number).closed = some (body, last) := by
    intro body last closed alone
    cases blank : line.code.allBlank with
    | true =>
      rcases tracked.blank found blank with ⟨-, same⟩ | ⟨other, -, here⟩
      · rwa [same] at closed
      · rw [here] at closed
        cases closed
        exact absurd joined alone
    | false =>
      rcases tracked.code found blank with none | ⟨other, -, here⟩
      · rw [none] at closed
        contradiction
      · rw [here] at closed
        cases closed
        exact absurd joined alone
  obtain ⟨above, precedes, same⟩ := tracked.joined joined
  refine ⟨tracked.body_next found, ?_, ?_, fun _ => ⟨above, precedes.next found rests, waits.trans same⟩⟩
  · intro body last closed alone
    rw [waits]
    exact tracked.attached body last (ends body last closed alone) alone
  · intro _ bare
    rw [waits, same]
    exact bare above (precedes.next found rests)

/-- Over a line of blanks and comments that belongs to no statement. -/
theorem Tracked.next_blank (tracked : Tracked text index) (found : (ofText text)[index]? = some line)
    (alone : ¬Joined text index) (blank : line.code.allBlank = true) : Tracked text (index + 1) := by
  have rests : ¬line.Starts text := fun begins => by
    have code := begins.2
    rw [blank] at code
    contradiction
  have step := upTo_blank found alone blank
  have apart : ¬Joined text (index + 1) := by
    rw [Joined, step]
    exact fun more => more rfl
  refine ⟨tracked.body_next found, ?_, ?_, fun joined => absurd joined apart⟩
  all_goals rw [step]
  · intro body last closed free
    rcases tracked.blank found blank with ⟨none, same⟩ | ⟨other, doc, here⟩
    · rw [same] at closed
      rw [leadingDoc, none]
      exact tracked.attached body last closed free
    · rw [here] at closed
      cases closed
      rw [(leadingDoc_of_doc doc).1]
      rfl
  · intro closed bare
    rcases tracked.blank found blank with ⟨none, same⟩ | ⟨other, -, here⟩
    · rw [same] at closed
      rw [leadingDoc, none]
      exact tracked.bare closed fun above precedes => bare above (precedes.next found rests)
    · rw [here] at closed
      contradiction

/-- Over the line on which a statement begins. -/
theorem Tracked.next_starts (tracked : Tracked text index) (found : (ofText text)[index]? = some line)
    (alone : ¬Joined text index) (code : line.code.allBlank = false) : Tracked text (index + 1) := by
  have step := doc_starts found alone code
  have precedes : Precedes text line (index + 1) :=
    precedes_self found ⟨by rwa [number_ofText found], code⟩
  refine ⟨tracked.body_next found, ?_, ?_, fun _ => ⟨line, precedes, step⟩⟩
  · intro body last closed _
    rcases tracked.code found code with none | ⟨other, doc, here⟩
    · rw [none] at closed
      contradiction
    · rw [here] at closed
      cases closed
      rw [step, (leadingDoc_of_doc doc).2]
      rfl
  · intro _ bare
    rw [step]
    exact bare line precedes

theorem tracked (short : index ≤ (ofText text).length) : Tracked text index := by
  induction index with
  | zero =>
    have start : Progress.start.upTo (ofText text) 0 = .start := by
      cases ofText text <;> rfl
    refine ⟨fun _ => rfl, fun _ _ closed => absurd closed.symm (Option.some_ne_none _),
      fun _ _ => ?_, fun joined => ?_⟩
    · rw [start]
      rfl
    · rw [Joined, start] at joined
      exact absurd rfl joined
  | succ index ih =>
    have found := List.getElem?_eq_getElem short
    have tracked := ih (Nat.le_of_succ_le short)
    by_cases joined : Joined text index
    · exact tracked.next_joined found joined
    cases code : ((ofText text)[index]).code.allBlank with
    | true => exact tracked.next_blank found joined code
    | false => exact tracked.next_starts found joined code

/-! ## Statements -/

/-- What stands on a line in front of its code. -/
def indent (text : Text) (line : Line) : List Letter :=
  (line.letters text).take (line.code.takeWhile isBlank).length

/-- A line with code is what stands in front of it, and then its code. -/
theorem letters_of_code (member : line ∈ ofText text) (code : line.code.allBlank = false) :
    Doc.hasCode (line.indent text) = false ∧
      ∃ letter more, line.letters text = line.indent text ++ letter :: more ∧
        Doc.hasCode [letter] = true := by
  have shown : (line.letters text).map Doc.shown = line.code := by
    rw [code_ofText member, Doc.blankComments_eq_map]
    rfl
  have front : (line.indent text).map Doc.shown = line.code.takeWhile isBlank := by
    rw [indent, List.map_take, shown, ← List.prefix_iff_eq_take.mp (List.takeWhile_prefix isBlank)]
  have behind : ((line.letters text).drop (line.code.takeWhile isBlank).length).map Doc.shown =
      line.code.dropWhile isBlank := by
    rw [List.map_drop, shown, Text.drop_takeWhile]
  constructor
  · rw [← Bool.not_eq_true', ← Doc.allBlank_shown, front]
    exact List.all_takeWhile
  · have parts := List.take_append_drop (line.code.takeWhile isBlank).length (line.letters text)
    cases rest : (line.letters text).drop (line.code.takeWhile isBlank).length with
    | nil =>
      rw [rest, List.map_nil] at behind
      have all : line.code.allBlank = true := List.all_eq_true.mpr (List.dropWhile_eq_nil_iff.mp behind.symm)
      rw [all] at code
      contradiction
    | cons letter more =>
      have first := List.head?_dropWhile_not isBlank line.code
      rw [← behind, rest] at first
      rw [rest] at parts
      exact ⟨letter, more, parts.symm, by simpa [Doc.hasCode] using first⟩

theorem follows_iff (found : (ofText text)[index]? = some line) (body : Text) (last : Nat) :
    line.Follows text body last ↔
      ((trailTo text index).run (line.indent text)).closed = some (body, last) := by
  obtain ⟨raw, stands, read⟩ := exists_ofRaw found
  obtain rfl := number_ofText found
  have written : line.raw = withoutReturn raw := by
    rw [read]
    rfl
  have inside : (line.code.takeWhile isBlank).length ≤ (withoutReturn raw).length := by
    have size := length_blankComments (openedAt text line.number).comment.mode line.raw
    rw [← code_ofText (List.mem_of_getElem? found), written] at size
    rw [← size]
    exact (List.takeWhile_prefix isBlank).length_le
  have place := Mode.take_letters stands inside
  obtain ⟨mode, knows, -⟩ := (knows_trailTo text line.number (withoutReturn raw)).read
    (line.code.takeWhile isBlank).length
  rw [Follows, statementStart, place, ← Doc.closed_iff knows, Trail.run_append, indent, letters, written]
  rfl

/-- The doc comment in front of the code of a line is the line's, unless one trails the code. -/
theorem Tracked.indent (tracked : Tracked text index) (found : (ofText text)[index]? = some line)
    (code : line.code.allBlank = false) :
    (((trailTo text index).run (line.indent text)).closed = (trailTo text index).closed ∧
        line.leadingDoc = none) ∨
      ∃ body, ((trailTo text index).run (line.indent text)).closed = some (body, index) ∧
        (line.trailingDoc = none → line.leadingDoc = some (Doc.clean body)) := by
  have member := List.mem_of_getElem? found
  obtain ⟨bare, letter, more, parts, solid⟩ := letters_of_code member code
  have agree := tracked.agree found fun letter inside =>
    apart_letters member letter (parts ▸ List.mem_append_left _ inside)
  have saw : (readingOf text index (line.indent text)).sawCode = false := by rw [sawCode_readingOf, bare]
  have doc : line.doc = (readingOf text index (line.indent text)).ended ∨
      ∃ text, line.doc = some ⟨text, true⟩ := by
    rw [doc_eq found, parts, readingOf, Doc.Reading.run_append]
    exact Doc.ended_of_code solid more _
  rcases agree.blank saw with ⟨none, same⟩ | ⟨body, ended, here⟩
  · refine .inl ⟨same, ?_⟩
    rcases doc with leads | ⟨text, trails⟩
    · rw [leadingDoc, leads, none]
      rfl
    · exact (leadingDoc_of_doc trails).1
  · refine .inr ⟨body, here, fun only => ?_⟩
    rcases doc with leads | ⟨text, trails⟩
    · rw [ended, saw] at leads
      exact (leadingDoc_of_doc leads).1
    · rw [(leadingDoc_of_doc trails).2] at only
      contradiction

theorem documented (found : (ofText text)[index]? = some line) (code : line.code.allBlank = false) :
    line.Documented text (line.leadingDoc <|> (Progress.start.upTo (ofText text) index).doc) := by
  have tracked : Tracked text index := tracked (Nat.le_of_lt (List.getElem?_eq_some_iff.mp found).1)
  have number := number_ofText found
  constructor
  · intro body last before free only
    have closed := (follows_iff found body last).mp before
    rcases tracked.indent found code with ⟨same, none⟩ | ⟨other, here, leads⟩
    · rw [same] at closed
      rw [none, tracked.attached body last closed free]
      rfl
    · rw [here] at closed
      cases closed
      rw [leads (only number.symm)]
      rfl
  · intro nothing free
    rw [number] at free
    have closed : ((trailTo text index).run (line.indent text)).closed = none := by
      refine Option.eq_none_iff_forall_ne_some.mpr fun ⟨body, last⟩ closed => ?_
      exact nothing body last ((follows_iff found body last).mpr closed)
    rcases tracked.indent found code with ⟨same, none⟩ | ⟨other, here, -⟩
    · rw [none, tracked.bare (same.symm.trans closed) free]
      rfl
    · rw [here] at closed
      contradiction

end Line

/-- A macro is defined by a directive. -/
theorem Statement.of_template_mem {site : Site} {statement : Statement} {found : Callable}
    (member : .callable found ∈ statement.entries site) (kind : found.kind = .template) :
    ∃ start definition,
      statement = directive (.template found.name start found.label found.parameters definition) ∧
        found.documentation = some (site.templateDoc definition) ∧
        found.span.start.line = site.line.number := by
  cases Statement.mem_entries_iff.mp member with
  | template => exact ⟨_, _, rfl, rfl, rfl⟩
  | function => contradiction

namespace Outline

variable {file : SourceId} {text : Text} {skipStatic : Bool}

/-- An entry comes from a statement that is documented. -/
theorem exists_documented [Alphabets] {entry : Entry}
    (member : entry ∈ Progress.start.all file skipStatic (Line.ofText text)) :
    ∃ line doc, (Line.ofText text)[line.number]? = some line ∧ line.Documented text doc ∧
      entry ∈ (Statement.read line ((Line.ofText text).drop (line.number + 1))).2.entries
        ⟨file, skipStatic, line, doc⟩ := by
  obtain ⟨index, line, found, inside⟩ := Progress.exists_of_mem_all member
  obtain rfl := Line.number_ofText found
  rw [Progress.entries] at inside
  split at inside
  case isTrue => simp at inside
  case isFalse apart =>
    have code := (not_or.mp apart).2
    exact ⟨line, _, found, Line.documented found (Bool.eq_false_iff.mpr code), inside⟩

/--
Documentation belongs to the statement that directly follows it: what is recorded of a variable, a function or
a macro is the text of the doc comment directly before its statement. That holds unless the doc comment ends
on a line that a statement above goes on over, or one more ends behind code on the line of the statement; and
where none stands before a statement, unless one ends behind code on the line of the statement above.
-/
theorem ofText_documentation [Alphabets] (file : SourceId) (text : Text) (skipStatic : Bool) :
    (∀ global ∈ (ofText file text skipStatic).globals, ∃ line,
      (Line.ofText text)[global.span.start.line]? = some line ∧ line.Documented text global.documentation) ∧
    ∀ callable ∈ (ofText file text skipStatic).callables, ∃ line doc,
      (Line.ofText text)[callable.span.start.line]? = some line ∧ line.Documented text doc ∧
        (callable.kind = .function → callable.documentation = doc) ∧
        (callable.kind = .template → ∃ start definition,
          (Statement.read line ((Line.ofText text).drop (line.number + 1))).2 =
            .directive (.template callable.name start callable.label callable.parameters definition) ∧
          callable.documentation = some ((⟨file, skipStatic, line, doc⟩ : Site).templateDoc definition)) := by
  rw [ofText_eq]
  refine ⟨fun global member => ?_, fun callable member => ?_⟩
  · obtain ⟨line, doc, found, documented, entry⟩ := exists_documented (global_mem_of_putAll member)
    obtain ⟨heads, -, head, -, rfl⟩ := Statement.of_global_mem entry
    exact ⟨line, found, documented⟩
  · obtain ⟨line, doc, found, documented, entry⟩ := exists_documented (callable_mem_of_putAll member)
    cases template : callable.isTemplate with
    | false =>
      have plain : callable.kind = .function := by
        rw [Callable.kind, template]
        rfl
      obtain ⟨head, -, rfl⟩ := Statement.of_callable_mem entry plain
      exact ⟨line, doc, found, documented, fun _ => rfl,
        fun other => absurd (plain.symm.trans other) (by decide)⟩
    | true =>
      have kind : callable.kind = .template := by
        rw [Callable.kind, template]
        rfl
      obtain ⟨start, definition, stated, shows, place⟩ := Statement.of_template_mem entry kind
      have here : (Line.ofText text)[callable.span.start.line]? = some line := by
        rw [place]
        exact found
      exact ⟨line, doc, here, documented, fun other => absurd (kind.symm.trans other) (by decide),
        fun _ => ⟨start, definition, stated, shows⟩⟩

open scoped Identifier.European

/-- A doc comment that begins behind code and goes on over a line, and a function without one. -/
theorem ofText_documentation_gap :
    let text := "new a; /** Top\r\n * b */ // c\r\n/**/ #define M(%1) %1\nnative n();".toList
    let outline := ofText ⟨"f.sma".toList⟩ text false
    (∃ callable ∈ outline.callables, callable.name = ['M'] ∧
      callable.documentation = some "Top\nb\n\nMacro: M(%1) %1".toList) ∧
    ∃ callable ∈ outline.callables, callable.name = ['n'] ∧ callable.documentation = none := by
  intro text outline
  let first : Line := ⟨2, "/**/ #define M(%1) %1".toList, "     #define M(%1) %1".toList, none, 0⟩
  let second : Line := ⟨3, "native n();".toList, "native n();".toList, none, 0⟩
  have lines : Line.ofText text = [⟨0, "new a; /** Top".toList, "new a;        ".toList, none, 0⟩,
      ⟨1, " * b */ // c".toList, "            ".toList, some ⟨"Top\nb".toList, false⟩, 0⟩,
      first, second] := by
    decide +kernel
  have firstAt : (Line.ofText text)[2]? = some first := by rw [lines]; rfl
  have secondAt : (Line.ofText text)[3]? = some second := by rw [lines]; rfl
  let template : Callable := ⟨['M'], "M(%1)".toList, true, ⟨"f.sma".toList⟩, .onLine 2 13 1, ["%1".toList],
    some "Top\nb\n\nMacro: M(%1) %1".toList, false, false⟩
  let prototype : Callable := ⟨['n'], "native n()".toList, false, ⟨"f.sma".toList⟩, .onLine 3 7 1, [], none,
    true, false⟩
  have declared : outline.callables = [template, prototype] := by decide +kernel
  obtain ⟨-, all⟩ := ofText_documentation ⟨"f.sma".toList⟩ text false
  constructor
  · have member : template ∈ outline.callables := by simp [declared]
    obtain ⟨line, doc, found, documented, -, shows⟩ := all template member
    obtain rfl : first = line := Option.some.inj (firstAt.symm.trans found)
    have before : first.Follows text " Top\r\n * b ".toList 1 :=
      (Line.follows_iff firstAt _ _).mpr (by decide +kernel)
    obtain rfl := documented.attached _ 1 before (by decide +kernel) (fun _ => rfl)
    obtain ⟨start, definition, stated, documentation⟩ := shows rfl
    have read : (Statement.read first ((Line.ofText text).drop 3)).2 = .directive
        (.template ['M'] 13 "M(%1)".toList ["%1".toList] "M(%1) %1".toList) := by
      rw [lines]
      decide +kernel
    obtain ⟨-, -, -, -, rfl⟩ := Directive.template.inj (Statement.directive.inj (read.symm.trans stated))
    exact ⟨template, member, rfl, documentation.trans (by decide +kernel)⟩
  · have member : prototype ∈ outline.callables := by simp [declared]
    obtain ⟨line, doc, found, documented, shows, -⟩ := all prototype member
    obtain rfl : second = line := Option.some.inj (secondAt.symm.trans found)
    have nothing : ((Line.trailTo text 3).run (second.indent text)).closed = none := by decide +kernel
    have trailing : ∀ line ∈ Line.ofText text, line.trailingDoc = none := by
      rw [lines]
      decide +kernel
    have bare : ∀ body last, ¬second.Follows text body last := by
      intro body last before
      rw [Line.follows_iff secondAt, nothing] at before
      cases before
    have doc := documented.bare bare fun above precedes => trailing above precedes.inside
    exact ⟨prototype, member, rfl, (shows rfl).trans doc⟩

/-- Of two doc comments on a line only the last one is kept, and it is not the one before the statement. -/
theorem ofText_documentation_crowded :
    ¬∀ (file : SourceId) (text : Text) (skipStatic : Bool), ∀ global ∈ (ofText file text skipStatic).globals,
      ∀ line, (Line.ofText text)[global.span.start.line]? = some line →
        (∀ body index, line.Follows text body index → global.documentation = some (Doc.clean body)) ∧
        ((∀ body index, ¬line.Follows text body index) → global.documentation = none) := by
  intro always
  let line : Line := ⟨0, "/** A */ new x; /** B */".toList, "         new x;         ".toList,
    some ⟨"B".toList, true⟩, 0⟩
  let global : Global := ⟨"x".toList, "new x".toList, false, ⟨"f.sma".toList⟩, .onLine 0 13 1, none, false⟩
  have member : global ∈ (ofText ⟨"f.sma".toList⟩ "/** A */ new x; /** B */".toList false).globals := by
    decide +kernel
  have found : (Line.ofText "/** A */ new x; /** B */".toList)[0]? = some line := by decide +kernel
  have before : line.Follows "/** A */ new x; /** B */".toList " A ".toList 0 :=
    (Line.follows_iff found _ _).mpr (by decide +kernel)
  obtain ⟨attached, -⟩ := always _ _ _ global member line found
  exact absurd (attached _ _ before) (by decide)

end Outline

end PawnScope
