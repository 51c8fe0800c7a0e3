import PawnScope.Cursor.Word
import PawnScope.Proofs.Text.Pieces
/-!
A name in a text with what stands before and after it, and the word that a cursor in the name is on:
`Around.word`. The word is the longest run of its characters there (`Word.around?_of_run`), so it begins
where the name does, and is the name if no word goes on with what follows: `Around.word_of_ends`.
-/

namespace PawnScope

/-- The word around an offset in a run of the characters of words is the run, if it goes no further. -/
theorem Word.around?_of_run [Alphabets] {text above run rest : Text} (whole : text = above ++ (run ++ rest))
    (inside : ∀ c ∈ run, Identifier.isPart c = true)
    (before : ∀ c ∈ above.getLast?, Identifier.isPart c = false)
    (after : ∀ c ∈ rest.head?, Identifier.isPart c = false) {index : Nat} (short : index < run.length) :
    ∃ word, around? text (above.length + index) = some word ∧ word.name = run ∧
      word.start = above.length ∧ word.stop = above.length + run.length := by
  have here : text[above.length + index]? = some run[index] := by
    rw [whole, List.getElem?_append_right (Nat.le_add_right _ _), Nat.add_sub_cancel_left,
      List.getElem?_append_left short, List.getElem?_eq_getElem short]
  have back : lastRun (text.take (above.length + index)) = run.take index := by
    have cut : text.take (above.length + index) = above ++ run.take index := by
      rw [whole, List.take_length_add_append, List.take_append_of_le_length (Nat.le_of_lt short)]
    have front : ((run.take index).reverse ++ above.reverse).takeWhile Identifier.isPart =
        (run.take index).reverse := by
      refine Text.takeWhile_run ?_ ?_
      · intro c member
        exact inside c (List.mem_of_mem_take (List.mem_reverse.mp member))
      · rw [List.head?_reverse]
        exact before
    rw [lastRun, cut, List.reverse_append, front, List.reverse_reverse]
  have ahead : (text.drop (above.length + index)).takeWhile Identifier.isPart = run.drop index := by
    rw [whole, List.drop_length_add_append, List.drop_append_of_le_length (Nat.le_of_lt short)]
    exact Text.takeWhile_run (fun c member => inside c (List.mem_of_mem_drop member)) after
  have bounds : bounds? text (above.length + index) = some (above.length, above.length + run.length) := by
    have start : above.length + index - (run.take index).length = above.length := by
      rw [List.length_take]
      omega
    have stop : above.length + index + (run.drop index).length = above.length + run.length := by
      rw [List.length_drop]
      omega
    rw [bounds?, here]
    dsimp only
    rw [if_pos (inside _ (List.getElem_mem short)), back, ahead, start, stop]
  refine ⟨_, by rw [around?, bounds]; rfl, ?_, rfl, rfl⟩
  change Text.slice text _ _ = _
  rw [Text.slice, whole, List.drop_left, Nat.add_sub_cancel_left, List.take_left]

namespace Identifier

/-- A name as a token, between `above` and `rest` in a text. -/
structure Around [Alphabets] (text name above rest : Text) : Prop where
  whole : text = above ++ (name ++ rest)
  filled : name ≠ []
  parts : ∀ c ∈ name, isTokenPart c = true
  before : ∀ c ∈ above.getLast?, isPart c = false
  after : ∀ c ∈ rest.head?, isTokenPart c = false

namespace Around

variable [Alphabets] {text name above rest : Text}

theorem prepend (around : Around text name above rest) (front : Text)
    (ends : above = [] → ∀ c ∈ front.getLast?, isPart c = false) :
    Around (front ++ text) name (front ++ above) rest := by
  refine ⟨?_, around.filled, around.parts, ?_, around.after⟩
  · rw [around.whole, List.append_assoc]
  · by_cases nothing : above = []
    · rw [nothing, List.append_nil]
      exact ends nothing
    · rw [List.getLast?_append_of_ne_nil _ nothing]
      exact around.before

theorem append (around : Around text name above rest) (back : Text)
    (stops : rest = [] → ∀ c ∈ back.head?, isTokenPart c = false) :
    Around (text ++ back) name above (rest ++ back) := by
  refine ⟨?_, around.filled, around.parts, around.before, ?_⟩
  · rw [around.whole, List.append_assoc, List.append_assoc]
  · cases rest with
    | nil => exact stops rfl
    | cons c rest => exact around.after

/-- The word around any offset in a name begins with the name. -/
theorem word (around : Around text name above rest) {offset : Nat}
    (after : above.length ≤ offset) (before : offset < above.length + name.length) :
    ∃ word, Word.around? text offset = some word ∧ word.name = name ++ rest.takeWhile isPart ∧
      word.start = above.length ∧
      word.stop = above.length + name.length + (rest.takeWhile isPart).length := by
  obtain ⟨index, rfl⟩ := Nat.exists_eq_add_of_le after
  have whole : text = above ++ ((name ++ rest.takeWhile isPart) ++ rest.dropWhile isPart) := by
    rw [around.whole, List.append_assoc, List.takeWhile_append_dropWhile]
  have inside : ∀ c ∈ name ++ rest.takeWhile isPart, isPart c = true := by
    intro c member
    rcases List.mem_append.mp member with member | member
    · exact isPart_of_isTokenPart (around.parts c member)
    · exact List.all_eq_true.mp List.all_takeWhile c member
  have stops : ∀ c ∈ (rest.dropWhile isPart).head?, isPart c = false := by
    intro c next
    have stops := List.head?_dropWhile_not isPart rest
    rwa [Option.mem_def.mp next] at stops
  have short : index < (name ++ rest.takeWhile isPart).length := by
    rw [List.length_append]
    omega
  obtain ⟨word, found, same, start, stop⟩ := Word.around?_of_run whole inside around.before stops short
  exact ⟨word, found, same, start, by rw [stop, List.length_append, Nat.add_assoc]⟩

/-- The word around any offset in a name is the name, if no word goes on with what follows. -/
theorem word_of_ends (around : Around text name above rest)
    (ends : ∀ c ∈ rest.head?, isPart c = false) {offset : Nat} (after : above.length ≤ offset)
    (before : offset < above.length + name.length) :
    ∃ word, Word.around? text offset = some word ∧ word.name = name ∧ word.start = above.length ∧
      word.stop = above.length + name.length := by
  obtain ⟨word, found, same, start, stop⟩ := around.word after before
  have nothing : ([] ++ rest).takeWhile isPart = [] := Text.takeWhile_run (by simp) ends
  rw [List.nil_append] at nothing
  rw [nothing] at same stop
  exact ⟨word, found, by rw [same, List.append_nil], start, stop⟩

end Around

end Identifier

end PawnScope
