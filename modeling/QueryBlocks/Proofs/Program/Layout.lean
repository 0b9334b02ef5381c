import QueryBlocks.Proofs.Program.Tree
import QueryBlocks.Proofs.Script.RoundTrip

/-! Lines and statements. The lines of a branch, with its arms, are the written form of the
statement if those of its bodies are. -/
namespace QueryBlocks

open Program.Tree (branch)

/-- The lines, indented by `d`, are the written form of the statements. -/
def Prints (d : Nat) (ls : List String) (ss : List Stmt) : Prop :=
  lines (fun _ => (Print.indent d).toList) String.toList ls = (Print.stmts d ss).toList

/-- The lines of further arms, up to the brace that closes the last one, are the written form of
the other branch. -/
def Closes (d : Nat) (others : List (String × List String)) (other : Option (List Stmt)) : Prop :=
  lines (fun _ => (Print.indent d).toList) String.toList
    ((others.flatMap fun (head, body) => ("\x7d " ++ head ++ " \x7b") :: Code.within body) ++
      ["\x7d"]) =
    (Print.indent d).toList ++ '\x7d' :: (elseText d other ++ ['\n'])

variable {d : Nat} {ls body : List String} {ss : List Stmt} {s : Stmt} {c : Expr}
  {cond : String} {others : List (String × List String)} {other : Option (List Stmt)}

theorem Prints.line {l : String} (h : Print.stmt d s = l) : Prints d [l] [s] := by
  simp [Prints, lines, Print.stmts, h]

theorem Prints.append {ls' : List String} {ss' : List Stmt} (h : Prints d ls ss)
    (h' : Prints d ls' ss') : Prints d (ls ++ ls') (ss ++ ss') := by
  rw [Prints, stmts_eq_lines] at h h' ⊢
  rw [lines_append, lines_append, h, h']

theorem indent_succ (d : Nat) : (Print.indent (d + 1)).toList =
    (Print.indent d).toList ++ "  ".toList := by
  simp only [Print.indent, String.toList_ofList, Nat.mul_succ, List.replicate_add]
  rfl

theorem Prints.within (h : Prints (d + 1) ls ss) :
    lines (fun _ => (Print.indent d).toList) String.toList (Code.within ls) =
      (Print.stmts (d + 1) ss).toList := by
  rw [← h, lines, lines, Code.within, List.flatMap_map]
  simp only [indent_succ, String.toList_append, List.append_assoc]

theorem Closes.none : Closes d [] none := by
  simp [Closes, lines]

/-- The lines of an arm and of those after it. -/
theorem Closes.arm (head : String) (hbody : Prints (d + 1) body ss)
    (hothers : Closes d others other) :
    lines (fun _ => (Print.indent d).toList) String.toList
      ((head ++ " \x7b") :: (Code.within body ++ ((others.flatMap fun (head, body) =>
        ("\x7d " ++ head ++ " \x7b") :: Code.within body) ++ ["\x7d"]))) =
    (Print.indent d).toList ++ (head.toList ++ ' ' ::
      ((Print.braced d (Print.stmts (d + 1) ss)).toList ++ (elseText d other ++ ['\n']))) := by
  rw [← List.singleton_append, lines_append, lines_append, hbody.within, hothers, braced_text]
  simp [lines]

theorem Closes.orElse (hbody : Prints (d + 1) body [s]) (hs : s.isBranch = false) :
    Closes d [Code.orElse body] (some [s]) := by
  have h := Closes.arm "\x7d else" hbody .none
  simpa [Closes, Code.orElse, otherwiseText, hs] using h

/-- A branch begins with its condition, and goes on as any arm does. -/
theorem branch_arm : (Print.stmt d (branch c ss other)).toList =
    ("if (" ++ Print.expr d c ++ ")").toList ++
      ' ' :: ((Print.braced d (Print.stmts (d + 1) ss)).toList ++ elseText d other) := by
  rw [branch, branch_text, Option.map_map, Function.comp_def, Option.map_id']
  simp

theorem Closes.elseIf (hcond : Print.expr d c = cond) (hbody : Prints (d + 1) body ss)
    (hothers : Closes d others other) :
    Closes d (Code.elseIf cond body :: others) (some [branch c ss other]) := by
  subst hcond
  have h := Closes.arm ("\x7d " ++ ("else if (" ++ Print.expr d c ++ ")")) hbody hothers
  have hother : otherwiseText d [branch c ss other] = Print.stmt d (branch c ss other) := rfl
  simpa [Closes, Code.elseIf, hother, branch_arm, String.append_assoc] using h

theorem Prints.arms (hcond : Print.expr d c = cond) (hbody : Prints (d + 1) body ss)
    (hothers : Closes d others other) :
    Prints d (Code.arms cond body others) [branch c ss other] := by
  subst hcond
  have h := Closes.arm ("if (" ++ Print.expr d c ++ ")") hbody hothers
  simpa [Prints, Code.arms, Print.stmts, branch_arm, String.append_assoc] using h

end QueryBlocks
