import MatrixCalculator.Proofs.Acceptance
import MatrixCalculator.Proofs.Lexing
import MatrixCalculator.Proofs.Values

namespace MatrixCalculator

variable (f : Place → Place)

def Token.move (t : Token) : Token := (f t.place).token t.kind

def Separator.move : Separator → Separator
  | .newline p => .newline (f p)
  | .semicolon p => .semicolon (f p)

namespace Phrase

/-- The phrase with all its tokens moved. -/
@[simp] def move : {c : Category} → Phrase c → Phrase c
  | _, .ofTerm t => .ofTerm t.move
  | _, .sum left op p right => .sum left.move op (f p) right.move
  | _, .ofUnary u => .ofUnary u.move
  | _, .product left op p right => .product left.move op (f p) right.move
  | _, .negated p operand => .negated (f p) operand.move
  | _, .ofPower x => .ofPower x.move
  | _, .ofIndexed x => .ofIndexed x.move
  | _, .raised base p exponent => .raised base.move (f p) exponent.move
  | _, .ofPrimary x => .ofPrimary x.move
  | _, .part target l i r => .part target.move (f l) i.move (f r)
  | _, .entry target l i comma j r => .entry target.move (f l) i.move (f comma) j.move (f r)
  | _, .number value p => .number value (f p)
  | _, .ident name p => .ident name (f p)
  | _, .bareCall name p l r => .bareCall name (f p) (f l) (f r)
  | _, .call name p l args r => .call name (f p) (f l) args.move (f r)
  | _, .group l inner r => .group (f l) inner.move (f r)
  | _, .matrix l rows gap r => .matrix (f l) rows.move (gap.map (Separator.move f)) (f r)
  | _, .item e => .item e.move
  | _, .more items comma e => .more items.move (f comma) e.move
  | _, .firstRow gap row => .firstRow (gap.map (Separator.move f)) row.move
  | _, .nextRow rows sep gap row =>
    .nextRow rows.move (sep.move f) (gap.map (Separator.move f)) row.move
  | _, .assign name p equals value => .assign name (f p) (f equals) value.move
  | _, .bare e => .bare e.move
  | _, .firstStatement gap s => .firstStatement (gap.map (Separator.move f)) s.move
  | _, .nextStatement before sep gap s =>
    .nextStatement before.move (sep.move f) (gap.map (Separator.move f)) s.move
  | _, .blank gap => .blank (gap.map (Separator.move f))
  | _, .full statements gap => .full statements.move (gap.map (Separator.move f))

end Phrase

theorem Separator.token_move (s : Separator) : (s.move f).token = s.token.move f := by
  cases s <;> rfl

theorem Gap.yield_move (gap : Gap) :
    Gap.yield (gap.map (Separator.move f)) = gap.yield.map (Token.move f) := by
  simp [Gap.yield, Separator.token_move]

theorem Place.mark_move (p : Place) (s : Symbol) : (p.mark s).move f = (f p).mark s := rfl

theorem Place.token_move (p : Place) (k : Kind) : (p.token k).move f = (f p).token k := rfl

namespace Phrase

theorem yield_move {c : Category} (p : Phrase c) :
    (p.move f).yield = p.yield.map (Token.move f) := by
  induction p <;>
    simp_all [Place.mark_move, Place.token_move, Gap.yield_move, Separator.token_move]

theorem depth_move {c : Category} (p : Phrase c) : (p.move f).depth = p.depth := by
  induction p <;> simp_all

end Phrase

theorem significant_move (l : Layout) (ts : List Token) :
    significant l (ts.map (Token.move f)) = (significant l ts).map (Token.move f) := by
  induction ts generalizing l with
  | nil => rfl
  | cons t ts ih =>
    have hkind : (t.move f).kind = t.kind := rfl
    rw [List.map_cons, significant, significant, hkind]
    split
    · exact ih l
    · rw [ih, List.map_cons]

theorem Phrase.Derives.move {p : Phrase .program} {ts : List Token} (h : p.Derives ts) :
    (p.move f).Derives (ts.map (Token.move f)) := by
  rw [Phrase.Derives, Phrase.yield_move, h, significant_move]

/-- The meanings have the same value, or come to the same, item by item. -/
def Category.Agree : (c : Category) → c.Meaning → c.Meaning → Prop
  | .expression => Node.Agree
  | .term => Node.Agree
  | .unary => Node.Agree
  | .power => Node.Agree
  | .indexed => Node.Agree
  | .primary => Node.Agree
  | .items => List.Forall₂ Node.Agree
  | .rows => List.Forall₂ (List.Forall₂ Node.Agree)
  | .statement => Node.ExecuteAlike
  | .statements => List.Forall₂ Node.ExecuteAlike
  | .program => List.Forall₂ Node.ExecuteAlike

open Node in
theorem Phrase.agree_move {c : Category} (p : Phrase c) : c.Agree (p.move f).tree p.tree := by
  induction p with
  | ofTerm x ih => exact ih
  | sum left op p right ihl ihr => exact Agree.binary op.op ihl ihr
  | ofUnary u ih => exact ih
  | product left op p right ihl ihr => exact Agree.binary op.op ihl ihr
  | negated p operand ih => exact Agree.neg ih
  | ofPower x ih => exact ih
  | ofIndexed x ih => exact ih
  | raised base p exponent ihb ihe => exact Agree.binary .pow ihb ihe
  | ofPrimary x ih => exact ih
  | part target l i r iht ihi => exact Agree.index iht (.cons ihi .nil)
  | entry target l i comma j r iht ihi ihj => exact Agree.index iht (.cons ihi (.cons ihj .nil))
  | number value p => exact Agree.number value
  | ident name p => exact Agree.ident name
  | bareCall name p l r => exact Agree.call name .nil
  | call name p l args r ih => exact Agree.call name ih
  | group l inner r ih => exact ih
  | matrix l rows gap r ih => exact Agree.matrix ih
  | item e ih => exact .cons ih .nil
  | more items comma e ihi ihe => exact List.rel_append ihi (.cons ihe .nil)
  | firstRow gap row ih => exact .cons ih .nil
  | nextRow rows sep gap row ihr ih => exact List.rel_append ihr (.cons ih .nil)
  | assign name p equals value ih => exact ExecuteAlike.assign name ih
  | bare e ih => exact Agree.executeAlike ih (e.move f).proper e.proper
  | firstStatement gap s ih => exact .cons ih .nil
  | nextStatement before sep gap s ihb ih => exact List.rel_append ihb (.cons ih .nil)
  | blank gap => exact .nil
  | full statements gap ih => exact ih

end MatrixCalculator
