import PawnScope.Scope.Basic
/-!
What a name stands for in a scope. The symbols that it can stand for are `named` in the order in which they
are tried, and it stands for the first of them: `lookup?_eq_head?`. So it stands for a symbol that it names,
and for some symbol whenever it names one: `of_lookup?` and `isSome_lookup?_iff`.
-/

namespace PawnScope.Scope

variable {scope : Scope} {name : Text} {symbol : Symbol} {callable : Callable}

/-- All symbols that a scope shows. -/
def symbols (scope : Scope) : List Symbol :=
  scope.constants.map .constant ++ scope.callables.map .callable ++ scope.globals.map .global

theorem constant_mem_symbols {constant : Constant} :
    .constant constant ∈ scope.symbols ↔ constant ∈ scope.constants := by
  simp [symbols]

theorem callable_mem_symbols : .callable callable ∈ scope.symbols ↔ callable ∈ scope.callables := by
  simp [symbols]

theorem global_mem_symbols {global : Global} : .global global ∈ scope.symbols ↔ global ∈ scope.globals := by
  simp [symbols]

theorem forall_symbols {holds : Symbol → Prop} :
    (∀ symbol ∈ scope.symbols, holds symbol) ↔
      (∀ constant ∈ scope.constants, holds (.constant constant)) ∧
      (∀ callable ∈ scope.callables, holds (.callable callable)) ∧
      ∀ global ∈ scope.globals, holds (.global global) := by
  simp [symbols, or_imp, forall_and]

/-- The name names the symbol, as it is or in its alternate spelling. -/
def Names (name : Text) (symbol : Symbol) : Prop :=
  Identifier.key symbol.name = Identifier.key name ∨
    Identifier.key symbol.name = Identifier.key (Identifier.alternate name)

/-- The symbols that a name names, those of the name as it is before those of its alternate spelling. -/
def called (name : Text) (symbols : List Symbol) : List Symbol :=
  symbols.filter (Identifier.key ·.name == Identifier.key name) ++
    symbols.filter (Identifier.key ·.name == Identifier.key (Identifier.alternate name))

/-- All that a name can stand for in a scope: constants, then callables, then variables. -/
def named (scope : Scope) (name : Text) : List Symbol :=
  called name (scope.constants.map .constant) ++ (called name (scope.callables.map .callable) ++
    called name (scope.globals.map .global))

theorem mem_called {symbols : List Symbol} :
    symbol ∈ called name symbols ↔ symbol ∈ symbols ∧ Names name symbol := by
  simp [called, Names, and_or_left]

theorem mem_named : symbol ∈ scope.named name ↔ symbol ∈ scope.symbols ∧ Names name symbol := by
  simp only [named, symbols, List.mem_append, mem_called, or_and_right, or_assoc]

/-- Finding by a name finds the first symbol that is called so. -/
theorem map_findSpelled? {α : Type} (kind : α → Symbol) (symbols : List α) (name : Text) :
    (findSpelled? (fun key => symbols.find? fun symbol => Identifier.key (kind symbol).name == key)
      name).map kind = (called name (symbols.map kind)).head? := by
  unfold findSpelled? called
  rw [Option.orElse_eq_orElse, Option.orElse_eq_or, Option.map_or, List.head?_append, List.head?_filter,
    List.head?_filter, List.find?_map, List.find?_map]
  rfl

theorem map_callable? (scope : Scope) (name : Text) :
    (scope.callable? name).map .callable = (called name (scope.callables.map .callable)).head? :=
  map_findSpelled? .callable scope.callables name

/-- A name stands for the first symbol that it can stand for. -/
theorem lookup?_eq_head? (scope : Scope) (name : Text) : scope.lookup? name = (scope.named name).head? := by
  have constants : (scope.constant? name).map .constant =
      (called name (scope.constants.map .constant)).head? :=
    map_findSpelled? .constant scope.constants name
  have globals : (scope.global? name).map .global =
      (called name (scope.globals.map .global)).head? :=
    map_findSpelled? .global scope.globals name
  unfold named lookup?
  rw [List.head?_append, List.head?_append, ← constants, ← map_callable?, ← globals]
  cases scope.constant? name with
  | some constant => rfl
  | none =>
    cases scope.callable? name with
    | some callable => rfl
    | none => rfl

/-- What a name stands for is a symbol of the scope, and has that name. -/
theorem of_lookup? (found : scope.lookup? name = some symbol) : symbol ∈ scope.symbols ∧ Names name symbol :=
  mem_named.mp (List.mem_of_head? ((scope.lookup?_eq_head? name).symm.trans found))

theorem of_callable? (found : scope.callable? name = some callable) :
    .callable callable ∈ scope.symbols ∧ Names name (.callable callable) := by
  have first := scope.map_callable? name
  rw [found, Option.map_some] at first
  obtain ⟨member, names⟩ := mem_called.mp (List.mem_of_head? first.symm)
  exact ⟨callable_mem_symbols.mpr (by simpa using member), names⟩

/-- A name stands for something if it names a symbol of the scope. -/
theorem isSome_lookup?_iff :
    (scope.lookup? name).isSome = true ↔ ∃ symbol ∈ scope.symbols, Names name symbol := by
  rw [lookup?_eq_head?, List.isSome_head?]
  constructor
  · intro some
    obtain ⟨symbol, member⟩ := List.exists_mem_of_ne_nil _ some
    exact ⟨symbol, mem_named.mp member⟩
  · rintro ⟨symbol, named⟩
    exact List.ne_nil_of_mem (mem_named.mpr named)

end PawnScope.Scope
