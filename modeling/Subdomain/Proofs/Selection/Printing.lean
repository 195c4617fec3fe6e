import Subdomain.Proofs.Selection.Slices
import Subdomain.Proofs.Selection.Writing

/-!
# Printing

A program is printed by running it on texts: a leaf puts its own text on the
stack, and an operator joins the two topmost texts, with parentheses around the
second if that is the text of an operation. What is printed for a program that was
read is read as the same program (`parse_rendered`).
-/

namespace Subdomain

namespace Selection

open Lexical

/-! ## Printing programs -/

/-- A text on the stack, and whether it is the text of an operation. -/
structure Operand where
  chars : List Char
  operation : Bool

/-- The text behind an operator. -/
def Operand.right (a : Operand) : List Char :=
  if a.operation then '(' :: (a.chars ++ [')']) else a.chars

def Instr.render? : Instr → List Operand → Option (List Operand)
  | push l, stack => some (⟨l.chars, false⟩ :: stack)
  | apply o, b :: a :: stack =>
    some (⟨a.chars ++ ' ' :: (o.chars ++ ' ' :: b.right), true⟩ :: stack)
  | apply _, _ => none

/-- Prints the instructions onto a stack. -/
def Program.renderFrom? (stack : List Operand) : Program → Option (List Operand)
  | [] => some stack
  | i :: p => do renderFrom? (← i.render? stack) p

/-- The text of a program, if it leaves one on the stack. -/
def Program.rendered? (p : Program) : Option (List Char) :=
  match renderFrom? [] p with
  | some [a] => some a.chars
  | _ => none

def Tree.operand : Tree → Operand
  | leaf l => ⟨l.chars, false⟩
  | combine a o b => ⟨(combine a o b).chars, true⟩

theorem Tree.chars_operand (t : Tree) : t.operand.chars = t.chars := by
  cases t <;> rfl

theorem Tree.chars_combine {a b : Tree} {o : SetOperator} :
    (combine a o b).chars = a.chars ++ ' ' :: (o.chars ++ ' ' :: b.operand.right) := by
  cases b <;> simp [chars, operand, Operand.right]

/-- The program of a tree prints its text. -/
theorem renderFrom?_program (t : Tree) (stack : List Operand) (p : Program) :
    Program.renderFrom? stack (t.program ++ p) = Program.renderFrom? (t.operand :: stack) p := by
  induction t generalizing stack p with
  | leaf l => rfl
  | combine a o b iha ihb =>
    rw [Tree.program, List.append_assoc, List.append_assoc, iha, ihb, Tree.operand,
      Tree.chars_combine, ← a.chars_operand]
    rfl

theorem rendered?_program (t : Tree) : Program.rendered? t.program = some t.chars := by
  have h := renderFrom?_program t [] []
  rw [List.append_nil] at h
  rw [Program.rendered?, h, ← t.chars_operand]
  rfl

/-! ## Reading what is printed -/

/-- The tree is read from its text, with parentheses that nest `n` deep, and is a term with `m` deep
if it stands behind an operator. -/
structure Tree.Written (n m : Nat) (t : Tree) : Prop where
  expr : ExprText n t.chars (some t)
  term : TermText m t.operand.right (some t)

theorem Tree.Written.mono {n n' m m' : Nat} {t : Tree} (h : t.Written n m) (hn : n ≤ n')
    (hm : m ≤ m') : t.Written n' m' :=
  ⟨h.expr.mono hn, h.term.mono hm⟩

theorem Leaf.Sound.written {l : Leaf} (h : l.Sound) : (Tree.leaf l).Written 0 0 :=
  ⟨h.leafText.term.expr, h.leafText.term⟩

theorem Tree.Written.combine {n n' m m' : Nat} {a b : Tree} (ha : a.Written n m)
    (o : SetOperator) (hb : b.Written n' m') :
    (Tree.combine a o b).Written (max n m') (max n m' + 1) := by
  have h := ha.expr.combine o hb.term
  rw [← chars_combine] at h
  exact ⟨h, h.parens⟩

section

variable {text : List Char}

mutual

theorem ExprForm.written (d : ExprForm) (h : Parts text d.tokens d.integers d.predicates)
    {t : Tree} (ht : d.tree? text = some t) : t.Written d.nesting (d.nesting + 1) := by
  match d with
  | .mk head tail =>
    obtain ⟨left, hleft, ht⟩ := Option.bind_eq_some_iff.1 ht
    have hhead := head.written (h.mono (List.subset_append_left ..) (List.subset_append_left ..)
      (List.subset_append_left ..)) hleft
    exact tail.written (h.mono (List.subset_append_right ..) (List.subset_append_right ..)
      (List.subset_append_right ..)) (hhead.mono (Nat.le_refl _) (Nat.le_succ _)) ht

/-- A chain of operators behind what is written goes on with it. -/
theorem TailForm.written (d : TailForm) (h : Parts text d.tokens d.integers d.predicates)
    {n : Nat} {left t : Tree} (hleft : left.Written n (n + 1))
    (ht : d.treeFrom? text left = some t) : t.Written (max n d.nesting) (max n d.nesting + 1) := by
  match d with
  | .nil =>
    cases ht
    rwa [TailForm.nesting, Nat.max_zero]
  | .cons op term rest =>
    obtain ⟨right, hright, ht⟩ := Option.bind_eq_some_iff.1 ht
    have hterm := term.written (h.tail.mono (List.subset_append_left ..)
      (List.subset_append_left ..) (List.subset_append_left ..)) hright
    have hrest := rest.written (h.tail.mono (List.subset_append_right ..)
      (List.subset_append_right ..) (List.subset_append_right ..))
      (hleft.combine op.operator hterm) ht
    rwa [TailForm.nesting, ← Nat.max_assoc]

theorem TermForm.written (d : TermForm) (h : Parts text d.tokens d.integers d.predicates)
    {t : Tree} (ht : d.tree? text = some t) : t.Written d.nesting d.nesting := by
  match d with
  | .leaf d =>
    obtain ⟨l, hl, rfl⟩ := Option.map_eq_some_iff.1 ht
    exact (d.sound h hl).written
  | .parens o inner c =>
    have hinner := inner.written (h.tail.mono (List.subset_append_left ..) (List.Subset.refl _)
      (List.Subset.refl _)) ht
    exact hinner.mono (Nat.le_succ _) (Nat.le_refl _)

end

end

/-- What is printed for a program that was read is read as that program again: all its leaves, with
the texts and the expressions of their predicates, and all its operators. -/
theorem parse_rendered {text : List Char} {p : Program} (h : parse text = .ok p) :
    ∃ s, Program.rendered? p = some s ∧ parse s = .ok p := by
  obtain ⟨d, hd, hallowed, t, ht, rfl⟩ := parse_eq_ok_iff_form.1 h
  have hscans := scan_eq_ok_iff.1 hd
  have hparts : Parts text d.tokens d.integers d.predicates := by
    refine ⟨fun t ht => ?_, hallowed.fits, fun q hq => ?_⟩
    · obtain ⟨_, _, -, -, htakes⟩ := hscans.exists_of_mem ht
      exact htakes.of_append (r := [])
    · exact isPredicate_slice hscans (d.infix_of_mem hq)
  have hwritten := (d.written hparts ht).expr.mono hallowed.nesting
  exact ⟨t.chars, rendered?_program t, hwritten.parse_eq_ok_iff.2 ⟨t, rfl, rfl⟩⟩

/-- A negative group, a function called like a keyword, a list without commas and a predicate. -/
theorem parse_rendered_mixed : ∃ p,
    parse "(vertex of group -3)+(cells by all *c(vertices 1 2,3 - vertex in (x<1)&(y>0)))".toList =
      .ok p ∧
    parse ("vertices of group -3 +v (cells by all *c " ++
      "(vertices 1, 2, 3 -v vertices in (x<1)&(y>0)))").toList = .ok p := by
  let text := "(vertex of group -3)+(cells by all *c(vertices 1 2,3 - vertex in (x<1)&(y>0)))".toList
  obtain ⟨p, hp⟩ : ∃ p, parse text = .ok p := exists_ok_of_isSome (by decide +kernel)
  have htext : (parse text).toOption.bind Program.rendered? =
      some ("vertices of group -3 +v (cells by all *c " ++
        "(vertices 1, 2, 3 -v vertices in (x<1)&(y>0)))").toList := by decide +kernel
  obtain ⟨s, hs, hparse⟩ := parse_rendered hp
  rw [hp] at htext
  cases hs.symm.trans htext
  exact ⟨p, hp, hparse⟩

end Selection

end Subdomain
