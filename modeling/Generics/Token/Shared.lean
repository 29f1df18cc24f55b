import Generics.Token.Closure

/-!
Tokens that remember. The covariant bindings and the closure of a token are worked out when
they are first asked for, and kept: what is declared later does not change them. Copies of a
token share what they remember, and a token derived from another one starts afresh.
-/

namespace Generics

/-- What a token and its copies remember. -/
structure Memo where
  covariant? : Option Substitution
  closure? : Option Closure

instance : Inhabited Memo := ⟨none, none⟩

structure MemoTable where
  cells : Array Memo

namespace MemoTable

def empty : MemoTable := ⟨#[]⟩

instance : Inhabited MemoTable := ⟨empty⟩

def get (table : MemoTable) (cell : Nat) : Memo := (table.cells[cell]?).getD default

def set (table : MemoTable) (cell : Nat) (memo : Memo) : MemoTable :=
  ⟨table.cells.setIfInBounds cell memo⟩

end MemoTable

abbrev MemoM : Type → Type := StateM MemoTable

/-- A token with the cell that it shares with its copies. -/
structure SharedToken where
  token : Token
  cell : Nat

namespace SharedToken

/-- A token that remembers nothing yet. -/
def fresh (token : Token) : MemoM SharedToken :=
  modifyGet fun table => (⟨token, table.cells.size⟩, ⟨table.cells.push default⟩)

/-- The covariant bindings of the type, as they were when first asked for. -/
def covariant (env : Env) (shared : SharedToken) : MemoM Substitution :=
  modifyGet fun table =>
    let memo := table.get shared.cell
    match memo.covariant? with
    | some bindings => (bindings, table)
    | none =>
      let bindings := env.covariantly shared.token.type
      (bindings, table.set shared.cell { memo with covariant? := some bindings })

/-- The closure of the token, as it was when first asked for. -/
def closure (env : Env) (shared : SharedToken) : MemoM Closure :=
  modifyGet fun table =>
    let memo := table.get shared.cell
    match memo.closure? with
    | some found => (found, table)
    | none =>
      let found := shared.token.closure env
      (found, table.set shared.cell { memo with closure? := some found })

/-- Resolves direct supertypes. The covariant bindings are asked for when there is an edge to
resolve, and not before. -/
def resolveDirects (env : Env) (shared : SharedToken)
    (supertypes : List Token.DirectSupertype) : MemoM (List Token) := do
  if supertypes.any Token.DirectSupertype.isEdge then
    let bindings ← shared.covariant env
    return supertypes.map (shared.token.resolveDirect bindings)
  else
    return supertypes.map (shared.token.resolveDirect .empty)

def superclass? (env : Env) (shared : SharedToken) : MemoM (Option Token) :=
  List.head? <$> shared.resolveDirects env (shared.token.directSuperclass? env).toList

def interfaces (env : Env) (shared : SharedToken) : MemoM (List Token) :=
  shared.resolveDirects env (shared.token.directInterfaces env)

def resolveType (env : Env) (shared : SharedToken) (t : Ty) : MemoM Token := do
  return shared.token.resolveTypeWith (← shared.covariant env) t

/-- A derived token, or the token itself where nothing is derived. -/
def orSelf (shared : SharedToken) : Option Token → MemoM SharedToken
  | some token => fresh token
  | none => pure shared

/-- The boxing class of a primitive; any other token is itself. -/
def wrap (shared : SharedToken) : MemoM SharedToken := shared.orSelf shared.token.wrapper?

/-- The primitive that a class boxes; any other token is itself. -/
def unwrap (shared : SharedToken) : MemoM SharedToken := shared.orSelf shared.token.boxed?

/-- The token with a variable replaced. With the variable in its own place it is itself. -/
def replacing (shared : SharedToken) (v : TyVar) (value : Ty) :
    ExceptT TypeFault MemoM SharedToken := do
  if Substitution.isVariable v value then
    return shared
  let token ← shared.token.replacing v value
  fresh token

end SharedToken

end Generics
