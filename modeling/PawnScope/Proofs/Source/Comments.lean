import PawnScope.Identifier.European
import PawnScope.Proofs.Source.Braces
import PawnScope.Proofs.Source.Entries
/-!
What stands inside of comments does not matter to the outline: two texts that have their comments at the
same places, and that differ in line comments and plain block comments only, have one outline:
`Outline.ofText_comments`. Two readers of the texts can be in different modes inside of a block comment, but
they never come to different regions (`Mode.step_alike`).
-/

namespace PawnScope

/-- The kinds of comments. -/
inductive CommentKind where
  | line
  | block
  | doc
deriving DecidableEq, Repr

namespace Mode

/-- The comment that a reader is inside of. -/
def commentKind? : Mode → Option CommentKind
  | code | literal _ | escaped _ => none
  | lineComment => some .line
  | opening _ isDoc | block isDoc | closing isDoc => some (if isDoc then .doc else .block)

/-- The comment that `c` belongs to, its openers and closers included. -/
def kindAt (mode : Mode) (c : Char) (rest : Text) : Option CommentKind :=
  mode.commentKind? <|> (mode.step c rest).2.commentKind?

/-- The comments that the characters of a line belong to. -/
def kinds (mode : Mode) : Text → List (Option CommentKind)
  | [] => []
  | c :: rest => mode.kindAt c rest :: (mode.step c rest).2.kinds rest

/-- The same for a written line; a carriage return at its end belongs to no comment. -/
def kindsOfRaw (mode : Mode) (raw : Text) : List (Option CommentKind) :=
  mode.kinds (Line.withoutReturn raw) ++
    List.replicate (raw.length - (Line.withoutReturn raw).length) none

/-- The same for written lines with a line feed between neighbours, which belongs to no comment. -/
def kindsOfLines (mode : Mode) : List Text → List (Option CommentKind)
  | [] => []
  | [raw] => mode.kindsOfRaw raw
  | raw :: rest =>
    mode.kindsOfRaw raw ++
      none :: kindsOfLines (mode.after (Line.withoutReturn raw)).overLine rest

end Mode

/-- The comments that the characters of a text belong to. -/
def commentKinds (text : Text) : List (Option CommentKind) :=
  Mode.code.kindsOfLines (Text.split '\n' text)

/-- The characters are the same, or both stand inside of a comment that is no doc comment, in no line end. -/
def IsHidden (kind : Option CommentKind) (c d : Char) : Prop :=
  c = d ∨ (kind = some .line ∨ kind = some .block) ∧ c ≠ '\n' ∧ c ≠ '\r' ∧ d ≠ '\n' ∧ d ≠ '\r'

/-- Two texts of one length that differ in comments only, which are no doc comments. -/
inductive DifferInComments : List (Option CommentKind) → Text → Text → Prop where
  | nil : DifferInComments [] [] []
  | cons {kind : Option CommentKind} {kinds : List (Option CommentKind)} {c d : Char}
      {one two : Text} (hidden : IsHidden kind c d) (more : DifferInComments kinds one two) :
      DifferInComments (kind :: kinds) (c :: one) (d :: two)

instance (kind : Option CommentKind) (c d : Char) : Decidable (IsHidden kind c d) :=
  inferInstanceAs (Decidable (_ ∨ _))

namespace DifferInComments

instance decidable : (kinds : List (Option CommentKind)) → (one two : Text) →
    Decidable (DifferInComments kinds one two)
  | [], [], [] => isTrue .nil
  | kind :: kinds, c :: one, d :: two =>
    match decidable kinds one two with
    | isFalse differ => isFalse fun | .cons _ more => differ more
    | isTrue more =>
      if hidden : IsHidden kind c d then isTrue (.cons hidden more)
      else isFalse fun | .cons inside _ => hidden inside
  | [], [], _ :: _ | [], _ :: _, _ | _ :: _, [], _ | _ :: _, _ :: _, [] => isFalse nofun

end DifferInComments

theorem IsHidden.eq {kind : Option CommentKind} {c d : Char} (hidden : IsHidden kind c d)
    (line : kind ≠ some .line) (block : kind ≠ some .block) : c = d :=
  hidden.resolve_right fun inside => inside.1.elim line block

namespace Mode

variable {m n : Mode} {c d : Char} {rest more : Text}

/-- The modes in which a reader of plain block comments can be. -/
def isPlain : Mode → Bool
  | code | opening _ false | block false | closing false => true
  | _ => false

/-- Readers that are in one mode, or somewhere about plain block comments. -/
def Alike (m n : Mode) : Prop :=
  m = n ∨ m.isPlain = true ∧ n.isPlain = true

/-- What a character does in code, if the comment that it opens is known. -/
theorem step_code (c : Char) (rest : Text) :
    code.step c rest =
      match code.kindAt c rest with
      | none => if isQuote c then (.literal, literal c) else (.code, code)
      | some .line => (.comment, lineComment)
      | some .block => (.comment, opening 1 false)
      | some .doc => (.comment, opening 2 true) := by
  have same : code.kindAt c rest = (code.step c rest).2.commentKind? := rfl
  rw [same]
  simp only [step]
  split
  case isTrue => simp [commentKind?]
  case isFalse =>
    split
    case isTrue => rfl
    case isFalse =>
      split
      case isTrue => split <;> rfl
      case isFalse => simp [commentKind?]

/-- Comments open with a slash. -/
theorem slash_of_kindAt (opens : code.kindAt c rest ≠ none) : c = '/' := by
  have same : code.kindAt c rest = (code.step c rest).2.commentKind? := rfl
  rw [same] at opens
  simp only [step] at opens
  grind [commentKind?]

theorem kindAt_of_isPlain (plain : m.isPlain = true) (inside : m ≠ code) (c : Char) (rest : Text) :
    m.kindAt c rest = some .block := by
  match m with
  | opening _ false | block false | closing false => rfl

/-- About a plain block comment all is comment. -/
theorem step_of_isPlain (plain : m.isPlain = true) (kind : m.kindAt c rest = some .block) :
    (m.step c rest).1 = .comment ∧ (m.step c rest).2.isPlain = true := by
  match m with
  | code =>
    rw [step_code, kind]
    exact ⟨rfl, rfl⟩
  | opening left false =>
    refine ⟨rfl, ?_⟩
    simp only [step]
    split <;> rfl
  | block false =>
    simp only [step]
    split <;> exact ⟨rfl, rfl⟩
  | closing false => exact ⟨rfl, rfl⟩

/-- Readers in one mode stay together, if they find the same comment. -/
theorem step_same (kind : m.kindAt c rest = m.kindAt d more) (hidden : IsHidden (m.kindAt c rest) c d)
    (ends : rest = [] ↔ more = []) (next : m = block true → rest.head? = more.head?) :
    (m.step c rest).1 = (m.step d more).1 ∧ (c = d ∨ (m.step c rest).1 = .comment) ∧
      Alike (m.step c rest).2 (m.step d more).2 := by
  -- Outside of plain comments the characters are the same, and so are the steps.
  have together (same : c = d) (steps : m.step c rest = m.step c more) :
      (m.step c rest).1 = (m.step d more).1 ∧ (c = d ∨ (m.step c rest).1 = .comment) ∧
        Alike (m.step c rest).2 (m.step d more).2 := by
    rw [steps, ← same]
    exact ⟨rfl, .inl rfl, .inl rfl⟩
  match m with
  | code =>
    obtain rfl : c = d := by
      rcases hidden with same | ⟨inside, -⟩
      · exact same
      · have opens : code.kindAt c rest ≠ none := fun none => by simp [none] at inside
        have opens' : code.kindAt d more ≠ none := kind ▸ opens
        rw [slash_of_kindAt opens, slash_of_kindAt opens']
    exact together rfl (by rw [step_code, step_code, kind])
  | literal quote =>
    have outside : (literal quote).kindAt c rest = none := by
      simp only [kindAt, commentKind?, step]
      grind
    rw [outside] at hidden
    exact together (hidden.eq (by simp) (by simp)) (by simp only [step, ne_eq, ends])
  | escaped quote => exact together (hidden.eq (by simp [kindAt, commentKind?, step])
      (by simp [kindAt, commentKind?, step])) rfl
  | lineComment => exact ⟨rfl, .inr rfl, .inl rfl⟩
  | opening left isDoc => exact ⟨rfl, .inr rfl, .inl rfl⟩
  | block false =>
    obtain ⟨region, after⟩ := step_of_isPlain (m := block false) rfl rfl
    obtain ⟨region', after'⟩ := step_of_isPlain (m := block false) rfl rfl
    exact ⟨region.trans region'.symm, .inr region, .inr ⟨after, after'⟩⟩
  | block true => exact together (hidden.eq (by simp [kindAt, commentKind?])
      (by simp [kindAt, commentKind?])) (by simp only [step, next rfl])
  | closing false => exact ⟨rfl, .inr rfl, .inl rfl⟩
  | closing true => exact together (hidden.eq (by simp [kindAt, commentKind?])
      (by simp [kindAt, commentKind?])) rfl

/--
Readers that are alike come to one region and stay alike, if they find the same comment. Where it is a doc
comment they have to see the same character behind, so that they end it together.
-/
theorem step_alike (alike : Alike m n) (kind : m.kindAt c rest = n.kindAt d more)
    (hidden : IsHidden (m.kindAt c rest) c d) (ends : rest = [] ↔ more = [])
    (next : m = block true → rest.head? = more.head?) :
    (m.step c rest).1 = (n.step d more).1 ∧ (c = d ∨ (m.step c rest).1 = .comment) ∧
      Alike (m.step c rest).2 (n.step d more).2 := by
  by_cases same : m = n
  · subst same
    exact step_same kind hidden ends next
  obtain ⟨plain, plain'⟩ := alike.resolve_left same
  -- At most one of them is in code, so that the other one is inside of a block comment.
  have inside : m.kindAt c rest = some .block := by
    by_cases outside : m = code
    · rw [kind]
      exact kindAt_of_isPlain plain' (fun other => same (outside.trans other.symm)) d more
    · exact kindAt_of_isPlain plain outside c rest
  obtain ⟨region, after⟩ := step_of_isPlain plain inside
  obtain ⟨region', after'⟩ := step_of_isPlain plain' (kind ▸ inside)
  exact ⟨region.trans region'.symm, .inr region, .inr ⟨after, after'⟩⟩

end Mode

theorem DifferInComments.length_eq {kinds : List (Option CommentKind)} {one two : Text}
    (differ : DifferInComments kinds one two) :
    one.length = two.length ∧ kinds.length = one.length := by
  induction differ with
  | nil => exact ⟨rfl, rfl⟩
  | cons hidden more ih => exact ⟨congrArg (· + 1) ih.1, congrArg (· + 1) ih.2⟩

/-- Lines from which a reader for code and one for doc comments take the same. -/
structure SameReading (one two : Text) (regions : List Region) : Prop where
  code : blankComments one regions = blankComments two regions
  doc : ∀ reading : Doc.Reading,
    (one.zip regions).foldl (fun reading pair => reading.step pair.1 pair.2) reading =
      (two.zip regions).foldl (fun reading pair => reading.step pair.1 pair.2) reading

theorem SameReading.cons {c d : Char} {one two : Text} {region : Region} {regions : List Region}
    (shown : c = d ∨ region = .comment) (same : SameReading one two regions) :
    SameReading (c :: one) (d :: two) (region :: regions) := by
  constructor
  · have here : (if region.isKept then c else ' ') = if region.isKept then d else ' ' := by
      rcases shown with rfl | rfl <;> rfl
    rw [blankComments, blankComments, List.zipWith_cons_cons, List.zipWith_cons_cons, here]
    exact congrArg _ same.code
  · intro reading
    have here : reading.step c region = reading.step d region := by
      rcases shown with rfl | rfl <;> rfl
    rw [List.zip_cons_cons, List.zip_cons_cons, List.foldl_cons, List.foldl_cons, here]
    exact same.doc _

namespace Mode

variable {m n : Mode} {c d : Char} {one two rest more : Text}

/-- A doc comment is left by two readers at the same character. -/
theorem head?_eq_of_doc (differ : DifferInComments (((block true).step c rest).2.kinds rest) rest more) :
    rest.head? = more.head? := by
  cases rest with
  | nil =>
    obtain rfl := List.length_eq_zero_iff.mp differ.length_eq.1.symm
    rfl
  | cons e rest =>
    have inside : ((block true).step c (e :: rest)).2.kindAt e rest = some .doc := by
      simp only [step]
      split <;> rfl
    rw [kinds, inside] at differ
    cases differ with
    | cons hidden behind => exact congrArg some (hidden.eq (by simp) (by simp))

/-- Readers that are alike where a line begins read it alike. -/
theorem read_alike (alike : Alike m n) (same : m.kinds one = n.kinds two)
    (differ : DifferInComments (m.kinds one) one two) :
    m.regions one = n.regions two ∧ Alike (m.after one) (n.after two) ∧
      SameReading one two (m.regions one) := by
  induction one generalizing m n two with
  | nil =>
    obtain rfl := List.length_eq_zero_iff.mp differ.length_eq.1.symm
    exact ⟨rfl, alike, rfl, fun reading => rfl⟩
  | cons c rest ih =>
    rw [kinds] at differ same
    cases differ with
    | @cons _ _ _ d _ more hidden behind =>
      rw [kinds] at same
      obtain ⟨here, below⟩ := List.cons.inj same
      have ends : rest = [] ↔ more = [] := by
        rw [← List.length_eq_zero_iff, ← List.length_eq_zero_iff, behind.length_eq.1]
      have next : m = block true → rest.head? = more.head? := by
        rintro rfl
        exact head?_eq_of_doc behind
      obtain ⟨region, shown, after⟩ := step_alike alike here hidden ends next
      obtain ⟨regions, after', reading⟩ := ih after below behind
      rw [Mode.regions, Mode.regions, region, regions]
      exact ⟨rfl, after', region ▸ regions ▸ reading.cons shown⟩

end Mode

/-! ## Lines -/

namespace DifferInComments

variable {kind : Option CommentKind} {kinds behind : List (Option CommentKind)} {one two rest : Text}

theorem symm (differ : DifferInComments kinds one two) : DifferInComments kinds two one := by
  induction differ with
  | nil => exact .nil
  | cons hidden more ih =>
    refine .cons (hidden.imp Eq.symm fun ⟨inside, line, return_, line', return'⟩ => ?_) ih
    exact ⟨inside, line', return', line, return_⟩

theorem of_append (long : kinds.length = one.length)
    (differ : DifferInComments (kinds ++ behind) (one ++ rest) two) :
    ∃ front back, two = front ++ back ∧ DifferInComments kinds one front ∧
      DifferInComments behind rest back := by
  induction kinds generalizing one two with
  | nil =>
    obtain rfl := List.length_eq_zero_iff.mp long.symm
    exact ⟨[], two, rfl, .nil, differ⟩
  | cons kind kinds ih =>
    cases one with
    | nil => contradiction
    | cons c one =>
      cases differ with
      | cons hidden more =>
        obtain ⟨front, back, rfl, here, below⟩ := ih (Nat.succ.inj long) more
        exact ⟨_ :: front, back, rfl, .cons hidden here, below⟩

/-- Line ends stay. -/
theorem of_cons {c : Char} (ends : c = '\n' ∨ c = '\r')
    (differ : DifferInComments (kind :: kinds) (c :: one) two) :
    ∃ more, two = c :: more ∧ DifferInComments kinds one more := by
  cases differ with
  | cons hidden more =>
    rcases hidden with rfl | ⟨-, line, return_, -⟩
    · exact ⟨_, rfl, more⟩
    · rcases ends with rfl | rfl <;> contradiction

theorem not_mem (apart : '\n' ∉ one) (differ : DifferInComments kinds one two) : '\n' ∉ two := by
  induction differ with
  | nil => exact apart
  | cons hidden more ih =>
    obtain ⟨other, apart⟩ := not_or.mp (List.mem_cons.not.mp apart)
    refine List.mem_cons.not.mpr (not_or.mpr ⟨?_, ih apart⟩)
    rcases hidden with rfl | ⟨-, -, -, line, -⟩
    · exact other
    · exact Ne.symm line

/-- A carriage return at the end stays. -/
theorem of_return (last : one.getLast? = some '\r') (differ : DifferInComments kinds one two) :
    two.getLast? = some '\r' := by
  induction differ with
  | nil => contradiction
  | @cons kind kinds c d one two hidden more ih =>
    cases more with
    | nil =>
      obtain rfl : c = '\r' := by simpa using last
      rcases hidden with rfl | ⟨-, -, return_, -⟩
      · exact last
      · contradiction
    | cons hidden' more =>
      rw [List.getLast?_cons_cons] at last ⊢
      exact ih last

end DifferInComments

namespace Mode

variable {m n : Mode} {one two : Text}

theorem length_kinds (m : Mode) (line : Text) : (m.kinds line).length = line.length := by
  induction line generalizing m with
  | nil => rfl
  | cons c rest ih => exact congrArg (· + 1) (ih _)

theorem length_kindsOfRaw (m : Mode) (raw : Text) : (m.kindsOfRaw raw).length = raw.length := by
  have short := (Line.withoutReturn_begins raw).length_le
  rw [kindsOfRaw, List.length_append, length_kinds, List.length_replicate]
  omega

theorem kindsOfLines_cons (m : Mode) (raw : Text) {rest : List Text} (more : rest ≠ []) :
    m.kindsOfLines (raw :: rest) = m.kindsOfRaw raw ++
      none :: (m.after (Line.withoutReturn raw)).overLine.kindsOfLines rest := by
  cases rest with
  | nil => exact absurd rfl more
  | cons next rest => rfl

theorem kindsOfRaw_return (m : Mode) (line : Text) :
    m.kindsOfRaw (line ++ ['\r']) = m.kinds line ++ [none] ∧
      Line.withoutReturn (line ++ ['\r']) = line := by
  have written : Line.withoutReturn (line ++ ['\r']) = line := by simp [Line.withoutReturn]
  rw [kindsOfRaw, written]
  exact ⟨by simp, rfl⟩

theorem kindsOfRaw_of_unended {raw : Text} (m : Mode) (unended : raw.getLast? ≠ some '\r') :
    m.kindsOfRaw raw = m.kinds raw ∧ Line.withoutReturn raw = raw := by
  have written : Line.withoutReturn raw = raw := if_neg unended
  rw [kindsOfRaw, written]
  exact ⟨by simp, rfl⟩

/-- A carriage return at the end belongs to no line. -/
theorem differ_withoutReturn (same : m.kindsOfRaw one = n.kindsOfRaw two)
    (differ : DifferInComments (m.kindsOfRaw one) one two) :
    m.kinds (Line.withoutReturn one) = n.kinds (Line.withoutReturn two) ∧
      DifferInComments (m.kinds (Line.withoutReturn one)) (Line.withoutReturn one)
        (Line.withoutReturn two) := by
  by_cases last : one.getLast? = some '\r'
  · have last' := differ.of_return last
    obtain ⟨one, rfl⟩ := List.getLast?_eq_some_iff.mp last
    obtain ⟨two, rfl⟩ := List.getLast?_eq_some_iff.mp last'
    obtain ⟨kinds, written⟩ := m.kindsOfRaw_return one
    obtain ⟨kinds', written'⟩ := n.kindsOfRaw_return two
    rw [kinds, kinds'] at same
    rw [kinds] at differ
    rw [written, written']
    obtain ⟨front, back, whole, here, below⟩ := differ.of_append (m.length_kinds one)
    obtain ⟨more, rfl, nothing⟩ := below.of_cons (.inr rfl)
    obtain rfl := List.length_eq_zero_iff.mp nothing.length_eq.1.symm
    obtain rfl := List.append_cancel_right whole
    exact ⟨List.append_cancel_right same, here⟩
  · have last' : two.getLast? ≠ some '\r' := fun last' => last (differ.symm.of_return last')
    obtain ⟨kinds, written⟩ := m.kindsOfRaw_of_unended last
    obtain ⟨kinds', written'⟩ := n.kindsOfRaw_of_unended last'
    rw [kinds, kinds'] at same
    rw [kinds] at differ
    rw [written, written']
    exact ⟨same, differ⟩

theorem overLine_alike (alike : Alike m n) : Alike m.overLine n.overLine := by
  rcases alike with rfl | ⟨plain, plain'⟩
  · exact .inl rfl
  · have passes {mode : Mode} (plain : mode.isPlain = true) : mode.overLine.isPlain = true := by
      match mode with
      | code | opening _ false | block false | closing false => rfl
    exact .inr ⟨passes plain, passes plain'⟩

theorem body_ofMode_alike (alike : Alike m n) (body : Text) :
    (OpenComment.ofMode m body).body = (OpenComment.ofMode n body).body := by
  rcases alike with rfl | ⟨plain, plain'⟩
  · rfl
  · have bare {mode : Mode} (plain : mode.isPlain = true) : (OpenComment.ofMode mode body).body = [] := by
      match mode with
      | code | opening _ false | block false | closing false => rfl
    rw [bare plain, bare plain']

end Mode

/-- What is open between two lines, up to what a plain block comment makes of it. -/
structure Opened.Alike (a b : Opened) : Prop where
  depth : a.depth = b.depth
  mode : a.comment.mode.Alike b.comment.mode
  body : a.comment.body = b.comment.body

namespace Line

/-- The line with all of it as written covered up, but for its length. -/
def veil (line : Line) : Line :=
  { line with raw := List.replicate line.raw.length ' ' }

variable {a b : Opened} {one two : Text} {raws : List Text}

theorem ofRaw_alike (alike : a.Alike b) (same : a.comment.mode.kinds one = b.comment.mode.kinds two)
    (differ : DifferInComments (a.comment.mode.kinds one) one two) (number : Nat) :
    (ofRaw number a.depth a.comment one).1.veil = (ofRaw number b.depth b.comment two).1.veil ∧
      (ofRaw number a.depth a.comment one).2.mode.Alike (ofRaw number b.depth b.comment two).2.mode ∧
      (ofRaw number a.depth a.comment one).2.body = (ofRaw number b.depth b.comment two).2.body := by
  obtain ⟨regions, after, reading⟩ := Mode.read_alike alike.mode same differ
  have doc : Doc.read a.comment.body one (a.comment.mode.regions one) =
      Doc.read b.comment.body two (b.comment.mode.regions two) := by
    rw [← regions, ← alike.body]
    exact reading.doc _
  simp only [ofRaw, doc, OpenComment.mode_ofMode]
  refine ⟨?_, Mode.overLine_alike after, Mode.body_ofMode_alike after _⟩
  simp only [veil, ← regions, reading.code, differ.length_eq.1, alike.depth]

/-- A line is read alike, and as much is open after it. -/
theorem next_alike [Alphabets] (alike : a.Alike b)
    (same : a.comment.mode.kindsOfRaw one = b.comment.mode.kindsOfRaw two)
    (differ : DifferInComments (a.comment.mode.kindsOfRaw one) one two) (number : Nat) :
    (ofRaw number a.depth a.comment (withoutReturn one)).1.veil =
        (ofRaw number b.depth b.comment (withoutReturn two)).1.veil ∧
      (a.next one).Alike (b.next two) := by
  obtain ⟨kinds, differ⟩ := Mode.differ_withoutReturn same differ
  have read := ofRaw_alike alike kinds differ
  obtain ⟨line, mode, body⟩ := read 0
  refine ⟨(read number).1, ?_, mode, body⟩
  have code : (ofRaw 0 a.depth a.comment (withoutReturn one)).1.code =
      (ofRaw 0 b.depth b.comment (withoutReturn two)).1.code := (Line.mk.inj line).2.2.1
  rw [Opened.next, Opened.next]
  dsimp only
  rw [alike.depth, ← code, alike.depth]

/-- Texts that differ in comments only are read as lines that differ in what is written only. -/
theorem readFrom_alike [Alphabets] (filled : raws ≠ []) (apart : ∀ raw ∈ raws, '\n' ∉ raw)
    (alike : a.Alike b)
    (same : a.comment.mode.kindsOfLines raws = b.comment.mode.kindsOfLines (Text.split '\n' two))
    (differ : DifferInComments (a.comment.mode.kindsOfLines raws) (Text.join ['\n'] raws) two)
    (number : Nat) :
    (readFrom number a raws).map veil = (readFrom number b (Text.split '\n' two)).map veil := by
  induction raws generalizing a b two number with
  | nil => exact absurd rfl filled
  | cons raw rest ih =>
    obtain ⟨single, apart⟩ := List.forall_mem_cons.mp apart
    by_cases more : rest = []
    · subst more
      rw [Text.split_of_not_mem (differ.not_mem single)] at same ⊢
      rw [readFrom_cons, readFrom_cons, List.map_cons, List.map_cons, (next_alike alike same differ number).1]
      rfl
    · rw [Mode.kindsOfLines_cons _ _ more, Text.join_cons _ _ more] at differ
      obtain ⟨front, back, rfl, here, below⟩ := differ.of_append (Mode.length_kindsOfRaw _ _)
      obtain ⟨behind, rfl, differ'⟩ := below.of_cons (.inl rfl)
      rw [Text.split_append (here.not_mem single)] at same ⊢
      rw [Mode.kindsOfLines_cons _ _ more, Mode.kindsOfLines_cons _ _ (Text.split_ne_nil _ _)] at same
      obtain ⟨same, same'⟩ := List.append_inj same (by
        rw [Mode.length_kindsOfRaw, Mode.length_kindsOfRaw, here.length_eq.1])
      obtain ⟨line, after⟩ := next_alike alike same here number
      have same' := (List.cons.inj same').2
      rw [← mode_next] at differ' same'
      rw [← mode_next] at same'
      rw [readFrom_cons, readFrom_cons, List.map_cons, List.map_cons, line,
        ih more apart after same' differ']

end Line

/-! ## Covered lines -/

namespace Outline

theorem joinList_veil [Alphabets] (joined : Text) (taken : Nat) (lines : List Line) :
    joinList joined taken (lines.map Line.veil) = joinList joined taken lines := by
  induction lines generalizing joined taken with
  | nil => rfl
  | cons next rest ih =>
    rw [List.map_cons, joinList, joinList, ih]
    rfl

end Outline

namespace Statement

theorem read_veil [Alphabets] (line : Line) (following : List Line) :
    read line.veil (following.map Line.veil) = read line following := by
  have same : (following.map Line.veil).map Line.code = following.map Line.code := by
    rw [List.map_map]
    rfl
  rw [read, read, Outline.joinList_veil, Outline.joinDirective_congr same]
  rfl

/-- Of what is written on a line an inclusion takes the length. -/
theorem entries_veil (file : SourceId) (skipStatic : Bool) (line : Line) (doc : Option Text)
    (statement : Statement) :
    statement.entries ⟨file, skipStatic, line.veil, doc⟩ =
      statement.entries ⟨file, skipStatic, line, doc⟩ := by
  cases statement with
  | nothing => rfl
  | directive directive =>
    cases directive with
    | inclusion filename isLocal isOptional =>
      have long : line.veil.raw.length = line.raw.length := List.length_replicate
      rw [entries, entries]
      dsimp only
      rw [long]
      rfl
    | template | constant => rfl
  | declaration declaration => cases declaration <;> rfl

end Statement

namespace Progress

variable (file : SourceId) (skipStatic : Bool)

theorem all_veil [Alphabets] (progress : Progress) (lines : List Line) :
    progress.all file skipStatic (lines.map Line.veil) = progress.all file skipStatic lines := by
  induction lines generalizing progress with
  | nil => rfl
  | cons line rest ih =>
    have step : progress.next line.veil (rest.map Line.veil) = progress.next line rest := by
      rw [next, Statement.read_veil, next]
      rfl
    have found : progress.entries file skipStatic line.veil (rest.map Line.veil) =
        progress.entries file skipStatic line rest := by
      rw [entries, entries, Statement.read_veil, Statement.entries_veil]
      rfl
    rw [List.map_cons, all, all, step, found, ih]

end Progress

namespace Outline

/--
What stands inside of comments does not matter. The texts have the same comments at the same places, and
where they differ it is in a line comment or in a block comment that is no doc comment.
-/
theorem ofText_comments [Alphabets] {one two : Text} (same : commentKinds one = commentKinds two)
    (differ : DifferInComments (commentKinds one) one two) (file : SourceId) (skipStatic : Bool) :
    ofText file one skipStatic = ofText file two skipStatic := by
  have written : DifferInComments (commentKinds one) (Text.join ['\n'] (Text.split '\n' one)) two := by
    rw [Text.join_split]
    exact differ
  have alike : Opened.nothing.Alike .nothing := ⟨rfl, .inl rfl, rfl⟩
  have lines : (Line.ofText one).map Line.veil = (Line.ofText two).map Line.veil :=
    Line.readFrom_alike (Text.split_ne_nil _ _) (fun _ => Text.not_mem_of_mem_split) alike same written 0
  rw [ofText_eq, ofText_eq, ← Progress.all_veil, lines, Progress.all_veil]

open scoped Identifier.European

/-- Quotes, braces, a directive, a backslash and openers in comments, of which one goes on over lines. -/
theorem ofText_comments_hostile :
    let one := "new a; // \x7b \" #if X \\\n".toList ++
      "/* '\x7d/* \r\n#define X 1 */ new b;\n".toList ++
      "/** b */ stock f(c /*)*/) \x7b\x7d".toList
    let two := "new a; // */ /** \"\u00e9 ;\n".toList ++
      "/*stock \r\n\x7b\x7d// \"new y;*/ new b;\n".toList ++
      "/** b */ stock f(c /*,*/) \x7b\x7d".toList
    let file : SourceId := ⟨"f.sma".toList⟩
    one ≠ two ∧ (ofText file one false).globals.length = 2 ∧
      ofText file one false = ofText file two false := by
  intro one two file
  have differ : one ≠ two := by decide +kernel
  have globals : (ofText file one false).globals.length = 2 := by decide +kernel
  exact ⟨differ, globals, ofText_comments (by decide +kernel) (by decide +kernel) file false⟩

end Outline

end PawnScope
