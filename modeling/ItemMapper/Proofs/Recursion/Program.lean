import Mathlib.Logic.Function.Basic

/-!
# Functions that call each other

A family of functions that call each other is given by the body of each.  A body is a tree of calls
(`Recursive`): it ends with an answer, or it asks for a call of the family and goes on with whatever
that answers.  The calls are only asked for, so a body can be written down without knowing whether
the recursion ends.

A computation is evaluated in finitely many steps, each call by the body it has
(`Recursive.Evaluates`).  There is at most one answer (`Evaluates.unique`), and there is none if the
recursion does not end: what holds of a call that has an answer as soon as it holds of the calls
that its body makes, holds of all calls that an evaluation makes (`Evaluates.induction`).
-/

namespace ItemMapper

/-- A computation that may call the functions of a family.  A call tells the type of its answer. -/
inductive Recursive (Call : Type → Type) (α : Type) : Type 1 where
  | done (answer : α)
  | call {β : Type} (asked : Call β) (rest : β → Recursive Call α)

namespace Recursive

variable {Call : Type → Type} {α β ε : Type}

/-- The second computation goes on with the answer of the first. -/
def andThen : Recursive Call α → (α → Recursive Call β) → Recursive Call β
  | .done answer, next => next answer
  | .call asked rest, next => .call asked fun answer => (rest answer).andThen next

instance : Monad (Recursive Call) where
  pure := .done
  bind := andThen

/-- A call and nothing else. -/
def ask (asked : Call α) : Recursive Call α :=
  .call asked .done

/-- A call that may fail, and nothing else. -/
def askFor (asked : Call (Except ε α)) : ExceptT ε (Recursive Call) α :=
  .mk (ask asked)

/-- A computation ends with an answer, where each call is evaluated by its body. -/
inductive Evaluates (body : (α : Type) → Call α → Recursive Call α) :
    {α : Type} → Recursive Call α → α → Prop
  | done {α : Type} (answer : α) : Evaluates body (.done answer) answer
  | call {α β : Type} {asked : Call β} {rest : β → Recursive Call α} {given : β} {answer : α}
      (hbody : Evaluates body (body β asked) given) (hrest : Evaluates body (rest given) answer) :
      Evaluates body (.call asked rest) answer

/-- A call is made while a computation is evaluated, by the computation itself. -/
inductive Makes (body : (α : Type) → Call α → Recursive Call α) {β : Type} (made : Call β) :
    {α : Type} → Recursive Call α → Prop
  | here {α : Type} {rest : β → Recursive Call α} : Makes body made (.call made rest)
  | later {α γ : Type} {asked : Call γ} {rest : γ → Recursive Call α} {given : γ}
      (hbody : Evaluates body (body γ asked) given) (hrest : Makes body made (rest given)) :
      Makes body made (.call asked rest)

variable {body : (α : Type) → Call α → Recursive Call α}

namespace Evaluates

/-! ## Computations in sequence -/

theorem ask {asked : Call α} {answer : α} (hbody : Evaluates body (body α asked) answer) :
    Evaluates body (Recursive.ask asked) answer :=
  .call hbody (.done answer)

theorem bind {first : Recursive Call α} {next : α → Recursive Call β} {given : α} {answer : β}
    (hfirst : Evaluates body first given) (hnext : Evaluates body (next given) answer) :
    Evaluates body (first >>= next) answer := by
  induction hfirst with
  | done given => exact hnext
  | call hbody _ _ ih => exact .call hbody (ih hnext)

/-- A failure ends the sequence; otherwise the second computation goes on. -/
theorem bindExcept {first : ExceptT ε (Recursive Call) α} {next : α → ExceptT ε (Recursive Call) β}
    {given : Except ε α} {following : α → Except ε β} (hfirst : Evaluates body first.run given)
    (hnext : ∀ answer, given = .ok answer → Evaluates body (next answer).run (following answer)) :
    Evaluates body (first >>= next).run (given >>= following) := by
  refine bind hfirst ?_
  cases given with
  | error failure => exact .done _
  | ok answer => exact hnext answer rfl

theorem mapM {γ : Type} {f : γ → Recursive Call α} {g : γ → α} {items : List γ}
    (hall : ∀ item ∈ items, Evaluates body (f item) (g item)) :
    Evaluates body (items.mapM f) (items.map g) := by
  suffices hloop : ∀ before, Evaluates body (List.mapM.loop f items before)
      (before.reverse ++ items.map g) from hloop []
  induction items with
  | nil =>
      intro before
      rw [List.mapM.loop, List.map_nil, List.append_nil]
      exact .done _
  | cons item rest ih =>
      intro before
      rw [List.forall_mem_cons] at hall
      refine hall.1.bind ?_
      rw [List.map_cons, List.append_cons, ← List.reverse_cons]
      exact ih hall.2 (g item :: before)

/-- The first item that fails ends the sequence. -/
theorem mapMExcept {γ : Type} {f : γ → ExceptT ε (Recursive Call) α} {g : γ → Except ε α}
    {items : List γ} (hall : ∀ item ∈ items, Evaluates body (f item).run (g item)) :
    Evaluates body (items.mapM f).run (items.mapM g) := by
  suffices hloop : ∀ before, Evaluates body (List.mapM.loop f items before).run
      (List.mapM.loop g items before) from hloop []
  induction items with
  | nil => exact fun before => .done _
  | cons item rest ih =>
      intro before
      rw [List.forall_mem_cons] at hall
      exact hall.1.bindExcept fun answer _ => ih hall.2 (answer :: before)

theorem foldlM {γ δ : Type} {f : δ → γ → Recursive Call δ} {g : δ → γ → δ} {items : List γ}
    {start : δ} (hall : ∀ state, ∀ item ∈ items, Evaluates body (f state item) (g state item)) :
    Evaluates body (items.foldlM f start) (items.foldl g start) := by
  induction items generalizing start with
  | nil => exact .done start
  | cons item rest ih =>
      refine (hall start item List.mem_cons_self).bind (ih fun state later hlater => ?_)
      exact hall state later (List.mem_cons_of_mem _ hlater)

/-! ## No answer without an end -/

theorem unique {computation : Recursive Call α} {answer other : α}
    (hanswer : Evaluates body computation answer) (hother : Evaluates body computation other) :
    answer = other := by
  induction hanswer with
  | done answer => cases hother with | done => rfl
  | call _ _ ihbody ihrest =>
      cases hother with
      | call hbody hrest =>
          obtain rfl := ihbody hbody
          exact ihrest hrest

/-- What holds of a call if its body is evaluated and it holds of the calls that the body makes, holds
of all calls that an evaluation makes. -/
theorem induction (holds : (β : Type) → Call β → Prop)
    (hstep : ∀ (β : Type) (asked : Call β) (given : β), Evaluates body (body β asked) given →
      (∀ (γ : Type) (made : Call γ), Makes body made (body β asked) → holds γ made) → holds β asked)
    {computation : Recursive Call α} {answer : α} (hanswer : Evaluates body computation answer) :
    ∀ (β : Type) (made : Call β), Makes body made computation → holds β made := by
  induction hanswer with
  | done answer => exact fun _ _ hmade => nomatch hmade
  | call hbody hrest ihbody ihrest =>
      intro β made hmade
      cases hmade with
      | here => exact hstep _ _ _ hbody ihbody
      | later hother hlater =>
          obtain rfl := hbody.unique hother
          exact ihrest β made hlater

/-- A computation that goes through some items makes all the calls for them. -/
theorem makes_of_mapM {γ : Type} {asks : γ → Call α} {items : List γ}
    {next : List α → Recursive Call β} {answer : β}
    (hanswer : Evaluates body ((items.mapM fun item => Recursive.ask (asks item)) >>= next) answer)
    {item : γ} (hitem : item ∈ items) :
    Makes body (asks item) ((items.mapM fun item => Recursive.ask (asks item)) >>= next) := by
  suffices hloop : ∀ before, ∀ answer, Evaluates body
      (List.mapM.loop (fun item => Recursive.ask (asks item)) items before >>= next) answer →
      Makes body (asks item)
        (List.mapM.loop (fun item => Recursive.ask (asks item)) items before >>= next) from
    hloop [] answer hanswer
  clear hanswer
  induction items with
  | nil => cases hitem
  | cons first rest ih =>
      intro before answer hanswer
      cases hanswer with
      | call hbody hrest =>
          rcases List.mem_cons.mp hitem with rfl | hmem
          · exact .here
          · exact .later hbody (ih hmem _ _ hrest)

end Evaluates

end Recursive

end ItemMapper
