import Mathlib.Data.List.Infix
import PawnScope.Path.Variables
/-!
Expansion of path variables. A text in which no reference is left open is made up of characters and of
references (`Readable`), and expansion goes over it piece by piece. Main result: `expand_homomorphism`.
-/

namespace PawnScope

namespace PathVariable

/-- The variables are the listed ones, and no name is listed for two of them. -/
theorem ofName?_eq_some_iff {name : Text} {which : PathVariable} :
    ofName? name = some which ↔ (name, which) ∈ names := by
  constructor
  · intro known
    obtain ⟨before, behind, listed, -⟩ := List.lookup_eq_some_iff.mp known
    rw [listed]
    exact List.mem_append_right _ List.mem_cons_self
  · intro member
    have once : ∀ entry ∈ names, ofName? entry.1 = some entry.2 := by decide
    exact once _ member

end PathVariable

namespace PathContext

variable {context : PathContext} {c : Char} {name text rest a b : Text}

/-- What a reference begins with. -/
def opener : Text :=
  ['$', '{']

/-- The reference to a name, as it is written. -/
def written (name : Text) : Text :=
  opener ++ (name ++ ['}'])

/-- No reference is left open: every `${` has a `}` somewhere behind it. -/
def Closed (text : Text) : Prop :=
  ∀ tail ∈ text.tails, opener <+: tail → '}' ∈ tail

instance (text : Text) : Decidable (Closed text) :=
  inferInstanceAs (Decidable (∀ tail ∈ text.tails, opener <+: tail → '}' ∈ tail))

theorem Closed.of_suffix (closed : Closed text) (suffix : rest <:+ text) : Closed rest := by
  intro tail member
  rw [List.mem_tails] at member
  exact closed tail ((List.mem_tails _ _).mpr (member.trans suffix))

theorem closed_of_unopened (unopened : ¬opener <:+: text) : Closed text := by
  intro tail member begins
  rw [List.mem_tails] at member
  exact absurd (begins.isInfix.trans member.isInfix) unopened

/-- Texts that are made up of references and of characters with which none begins. -/
inductive Readable : Text → Prop where
  | nil : Readable []
  | char {c : Char} {rest : Text} (plain : ¬opener <+: c :: rest) (more : Readable rest) :
      Readable (c :: rest)
  | reference {name rest : Text} (apart : '}' ∉ name) (more : Readable rest) :
      Readable (written name ++ rest)

theorem Closed.readable (closed : Closed text) : Readable text := by
  induction size : text.length using Nat.strongRecOn generalizing text with
  | ind size ih =>
    subst size
    by_cases begins : opener <+: text
    · obtain ⟨behind, rfl⟩ := begins
      have closer : '}' ∈ behind := by
        simpa [opener] using closed _ ((List.mem_tails _ _).mpr (List.suffix_refl _))
          (List.prefix_append _ _)
      obtain ⟨name, rest, rfl, apart⟩ := List.eq_append_cons_of_mem closer
      have whole : opener ++ (name ++ '}' :: rest) = written name ++ rest := by
        simp [written]
      rw [whole] at closed ih ⊢
      refine .reference apart (ih _ ?_ (closed.of_suffix (List.suffix_append _ _)) rfl)
      simp only [written, opener, List.length_append, List.length_cons, List.length_nil]
      omega
    · cases text with
      | nil => exact .nil
      | cons c rest =>
        exact .char begins (ih _ (Nat.lt_succ_self _) (closed.of_suffix (List.suffix_cons _ _)) rfl)

/-! ## Steps of the expansion -/

theorem expand_cons (plain : ¬opener <+: c :: rest) :
    context.expand (c :: rest) = c :: context.expand rest := by
  have other : ∀ behind, c = '$' → rest = '{' :: behind → False := by
    rintro behind rfl rfl
    exact plain (List.prefix_append opener behind)
  rw [expand, expandFrom]
  · rfl
  · exact other

theorem expandFrom_opened (apart : '}' ∉ text) :
    expandFrom context (some name) text = opener ++ (name ++ text) := by
  induction text generalizing name with
  | nil => rw [List.append_nil]; rfl
  | cons c rest ih =>
    obtain ⟨differ, apart'⟩ := not_or.mp (List.mem_cons.not.mp apart)
    rw [expandFrom, if_neg (Ne.symm differ), ih apart', List.append_assoc, List.singleton_append]

theorem expandFrom_closed (apart : '}' ∉ text) (rest : Text) :
    expandFrom context (some name) (text ++ '}' :: rest) =
      context.reference (name ++ text) ++ context.expand rest := by
  induction text generalizing name with
  | nil =>
    rw [List.nil_append, List.append_nil, expandFrom, if_pos rfl]
    rfl
  | cons c text ih =>
    obtain ⟨differ, apart'⟩ := not_or.mp (List.mem_cons.not.mp apart)
    rw [List.cons_append, expandFrom, if_neg (Ne.symm differ), ih apart', List.append_assoc,
      List.singleton_append]

/-- A reference is replaced, and what stands behind it is expanded by itself. -/
theorem expand_written (apart : '}' ∉ name) (rest : Text) :
    context.expand (written name ++ rest) = context.reference name ++ context.expand rest := by
  have opened : context.expand (written name ++ rest) =
      expandFrom context (some []) (name ++ '}' :: rest) := by
    rw [written, List.append_assoc, List.append_assoc]
    rfl
  rw [opened, expandFrom_closed apart, List.nil_append]

theorem expand_opened (apart : '}' ∉ text) : context.expand (opener ++ text) = opener ++ text :=
  expandFrom_opened apart

/-- A character that begins no reference does not begin one before a further text either. -/
theorem not_prefix_append (plain : ¬opener <+: c :: rest)
    (seam : (c :: rest).getLast? = some '$' → b.head? ≠ some '{') : ¬opener <+: c :: (rest ++ b) := by
  rintro ⟨behind, same⟩
  obtain ⟨rfl, next⟩ := List.cons.inj same
  cases rest with
  | nil => exact seam rfl (by rw [← List.nil_append b, ← next]; rfl)
  | cons d rest =>
    obtain ⟨rfl, -⟩ := List.cons.inj next
    exact plain (List.prefix_append opener rest)

theorem expand_append (closed : Closed a) (seam : a.getLast? = some '$' → b.head? ≠ some '{') :
    context.expand (a ++ b) = context.expand a ++ context.expand b := by
  induction closed.readable with
  | nil => rfl
  | @char c rest plain more ih =>
    have seam' : rest.getLast? = some '$' → b.head? ≠ some '{' := by
      intro last
      refine seam ?_
      rw [List.getLast?_cons, last]
      rfl
    rw [List.cons_append, expand_cons (not_prefix_append plain seam),
      ih (closed.of_suffix (List.suffix_cons _ _)) seam', expand_cons plain, List.cons_append]
  | @reference name rest apart more ih =>
    have seam' : rest.getLast? = some '$' → b.head? ≠ some '{' := by
      intro last
      refine seam ?_
      rw [List.getLast?_append, last]
      rfl
    rw [List.append_assoc, expand_written apart, ih (closed.of_suffix (List.suffix_append _ _)) seam',
      expand_written apart, List.append_assoc]

/-- Without a reference nothing changes. -/
theorem expand_unopened (unopened : ¬opener <:+: text) : context.expand text = text := by
  induction text with
  | nil => rfl
  | cons c rest ih =>
    obtain ⟨plain, behind⟩ := not_or.mp (List.infix_cons_iff.not.mp unopened)
    rw [expand_cons plain, ih behind]

theorem reference_of_value {which : PathVariable} {value : Text}
    (known : (name.trim, which) ∈ PathVariable.names)
    (valued : which.value? context = some value) : context.reference name = value := by
  rw [reference, PathVariable.ofName?_eq_some_iff.mpr known, Option.bind_some, valued]

theorem reference_of_none
    (without : ∀ which, (name.trim, which) ∈ PathVariable.names →
      which.value? context = none) : context.reference name = written name := by
  have none : (PathVariable.ofName? name.trim).bind (·.value? context) = none := by
    rw [Option.bind_eq_none_iff]
    exact fun which known => without which (PathVariable.ofName?_eq_some_iff.mp known)
  rw [reference, none]
  rfl

/--
Expansion goes over a text piece by piece. Two texts are expanded apart if the first leaves no reference
open and none begins where they meet. A reference is replaced by the value of its variable, which is put
down as it is, whatever references it has itself; a reference without a value stays, and so does a text
without references or from its first reference on if that is never closed.
-/
theorem expand_homomorphism (context : PathContext) :
    (∀ a b, Closed a → (a.getLast? = some '$' → b.head? ≠ some '{') →
      context.expand (a ++ b) = context.expand a ++ context.expand b) ∧
    (∀ name, '}' ∉ name →
      (∀ which value, (name.trim, which) ∈ PathVariable.names →
        which.value? context = some value → context.expand (written name) = value ∧
          ∀ a b, Closed a →
            context.expand (a ++ written name ++ b) = context.expand a ++ value ++ context.expand b) ∧
      ((∀ which, (name.trim, which) ∈ PathVariable.names → which.value? context = none) →
        context.expand (written name) = written name)) ∧
    (∀ text, ¬opener <:+: text → context.expand text = text) ∧
    ∀ before behind, ¬opener <:+: before → '}' ∉ behind →
      context.expand (before ++ (opener ++ behind)) = before ++ (opener ++ behind) := by
  have alone (name : Text) (apart : '}' ∉ name) :
      context.expand (written name) = context.reference name := by
    rw [← List.append_nil (written name), expand_written apart]
    exact List.append_nil _
  have begins (rest : Text) : (opener ++ rest).head? ≠ some '{' := by simp [opener]
  refine ⟨fun a b closed seam => expand_append closed seam, fun name apart => ⟨?_, ?_⟩,
    fun text unopened => expand_unopened unopened, ?_⟩
  · intro which value known valued
    have replaced := reference_of_value known valued
    refine ⟨(alone name apart).trans replaced, fun a b closed => ?_⟩
    have seam : a.getLast? = some '$' → (written name ++ b).head? ≠ some '{' := by
      intro _
      rw [written, List.append_assoc]
      exact begins _
    rw [List.append_assoc, expand_append closed seam, expand_written apart, replaced,
      List.append_assoc]
  · intro without
    rw [alone name apart, reference_of_none without]
  · intro before behind unopened apart
    rw [expand_append (closed_of_unopened unopened) fun _ => begins behind,
      expand_unopened unopened, expand_opened apart]

/-- A workspace whose root has a reference in its own name, and no file at hand. -/
def nestedContext : PathContext :=
  ⟨some ⟨"/srv/${file}".toList⟩, none⟩

/-- References that are unknown, nested, without a value and never closed. -/
theorem expand_homomorphism_nested :
    nestedContext.expand ("$$\x7bnope $\x7bfile\x7d".toList ++ "\x7b$\x7broot\x7d$".toList) =
        nestedContext.expand "$$\x7bnope $\x7bfile\x7d".toList ++
          nestedContext.expand "\x7b$\x7broot\x7d$".toList ∧
      nestedContext.expand ("$".toList ++ written " workspaceRoot ".toList ++ "/$\x7b".toList) =
        nestedContext.expand "$".toList ++ "/srv/${file}".toList ++ nestedContext.expand "/$\x7b".toList ∧
      nestedContext.expand (written "file ".toList) = written "file ".toList ∧
      nestedContext.expand "$file\x7b\x7d".toList = "$file\x7b\x7d".toList ∧
      nestedContext.expand ("$".toList ++ (opener ++ "file $\x7b".toList)) =
        "$".toList ++ (opener ++ "file $\x7b".toList) := by
  obtain ⟨apart, references, unopened, unclosed⟩ := expand_homomorphism nestedContext
  refine ⟨apart _ _ (by decide) (by decide), ?_, (references _ (by decide)).2 ?_,
    unopened _ (by decide), unclosed _ _ (by decide) (by decide)⟩
  · exact ((references _ (by decide)).1 .root _ (by decide) rfl).2 _ _ (by decide)
  · intro which known
    obtain rfl : PathVariable.file = which :=
      Option.some.inj (PathVariable.ofName?_eq_some_iff.mpr known)
    rfl

end PathContext

end PawnScope
