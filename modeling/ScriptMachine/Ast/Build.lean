import ScriptMachine.Ast.Basic

/-!
# Building programs by hand

Constructors for hosts that put a program together without source text. All spans are dummies.
-/

namespace ScriptMachine.Build

def ident (name : String) : Ident := ⟨name, .dummy⟩
def block (statements : List Stmt) : Block := ⟨statements, .dummy⟩

/-! ## Expressions -/

def int (n : Int64) : Expr := .literal (.int n) .dummy
def float (x : Float) : Expr := .literal (.float x) .dummy
def string (s : String) : Expr := .literal (.str s) .dummy
def boolean (b : Bool) : Expr := .literal (.bool b) .dummy
def null : Expr := .literal .null .dummy
def id (name : String) : Expr := .ident (ident name)
def unary (op : String) (e : Expr) : Expr := .unary op e .dummy
def binary (op : String) (l r : Expr) : Expr := .binary op l r .dummy
def ternary (c yes no : Expr) : Expr := .ternary c yes no .dummy
def cond (c : Expr) (yes : List Stmt) (no : Option (List Stmt)) : Expr :=
  .cond c (block yes) (no.map block) .dummy
def function (name : Option String) (params : List String) (body : List Stmt) : Expr :=
  .function ⟨name, params.map ident, block body, .dummy⟩
def call (f : Expr) (args : List Expr) : Expr := .call f args .dummy
def array (values : List Expr) : Expr := .array (values.map fun v => ⟨none, v⟩) false .dummy
/-- An ordered map; an entry without a key takes the next integer. -/
def ordered (entries : List (Option Expr × Expr)) : Expr :=
  .array (entries.map fun e => ⟨e.1, e.2⟩) true .dummy
def hash (pairs : List (Expr × Expr)) : Expr := .hash pairs .dummy
def index (t i : Expr) : Expr := .index t i .dummy
def assign (name : String) (v : Expr) : Expr := .assign (ident name) v .dummy
def indexAssign (t i v : Expr) : Expr := .indexAssign t i v .dummy
def member (t : Expr) (name : String) : Expr := .member t (ident name) .dummy
def memberAssign (t : Expr) (name : String) (v : Expr) : Expr :=
  .memberAssign t (ident name) v .dummy
def methodCall (t : Expr) (name : String) (args : List Expr) : Expr := call (member t name) args
def spawn (f : Expr) (args : List Expr) : Expr := .spawn f args .dummy
def channel (capacity : Option Expr) : Expr := .channel capacity .dummy
def send (c v : Expr) : Expr := .send c v .dummy
def receive (c : Expr) : Expr := .receive c .dummy
def this : Expr := .this .dummy
def superCall (method : String) (args : List Expr) : Expr :=
  call (.super (ident method) .dummy) args

/-! ## Statements -/

def bind (name : String) (v : Expr) : Stmt := .bind (ident name) v false .dummy
def const (name : String) (v : Expr) : Stmt := .bind (ident name) v true .dummy
def expr (e : Expr) : Stmt := .expr e .dummy
def ret (v : Option Expr) : Stmt := .ret v .dummy
def whileLoop (c : Expr) (body : List Stmt) : Stmt := .whileLoop c (block body) .dummy
def forLoop (init : Option Stmt) (c u : Option Expr) (body : List Stmt) : Stmt :=
  .forLoop init c u (block body) .dummy
def breakLoop : Stmt := .breakLoop .dummy
def continueLoop : Stmt := .continueLoop .dummy
def classDecl (name : String) (parent : Option String) (body : List Stmt) : Stmt :=
  .classDecl (ident name) (parent.map ident) body .dummy
/-- A method declaration inside a class body. -/
def method (name : String) (params : List String) (body : List Stmt) : Stmt :=
  bind name (function (some name) params body)
/-- A property declaration inside a class body. -/
def property (name : String) : Stmt := expr (id name)
def tryCatch (body : List Stmt) (handler : Option (Option String × List Stmt))
    (cleanup : Option (List Stmt)) : Stmt :=
  .tryCatch (block body) (handler.map fun h => ⟨h.1.map ident, block h.2⟩) (cleanup.map block)
    .dummy
def throw (v : Expr) : Stmt := .throw v .dummy

end ScriptMachine.Build
