import MethodCompiler.Assoc

/-!
# Classes

Which classes a catch clause accepts. Every class has a parent but the root. A
class nobody has registered is a child of `Exception`, and a class may be
registered again, even so that its ancestors form a circle.
-/

namespace MethodCompiler

/-- The parents of classes. -/
structure ClassTree where
  parents : List (String × String)
deriving DecidableEq, Repr

namespace ClassTree

/-- Puts a class below a parent. -/
def register (t : ClassTree) (className parent : String) : ClassTree :=
  ⟨Assoc.insert className parent t.parents⟩

/-- The classes that are always there. -/
def builtIn : ClassTree :=
  ⟨[("Exception", "Throwable"), ("Error", "Throwable"), ("RuntimeException", "Exception"),
    ("ArithmeticException", "RuntimeException"), ("NullPointerException", "RuntimeException"),
    ("IllegalStateException", "RuntimeException")]⟩

/-- The parent of a class. -/
def parent? (t : ClassTree) (className : String) : Option String :=
  if className = "Throwable" then none
  else some ((t.parents.lookup className).getD "Exception")

/-- Whether an ancestor is among the first classes on the way up from a class, of
which at most `steps` are visited. -/
def reaches (t : ClassTree) (ancestor : String) : Nat → String → Bool
  | 0, _ => false
  | steps + 1, className =>
    if className = ancestor then true
    else
      match t.parent? className with
      | none => false
      | some parent => reaches t ancestor steps parent

/-- Whether a class is another one or below it. Besides the registered classes the
way up visits at most the class itself and one that has no parent; what comes
later is a class seen before. -/
def isSubclass (t : ClassTree) (className ancestor : String) : Bool :=
  t.reaches ancestor (t.parents.length + 2) className

end ClassTree

end MethodCompiler
