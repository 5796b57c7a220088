import Mathlib.Data.List.DropRight
import MatrixCalculator.Proofs.Assembly

namespace MatrixCalculator

inductive Ended : List Token → Prop where
  | last {t : Token} (h : t.kind = .endOfInput) : Ended [t]
  | cons {t : Token} {ts : List Token} (h : t.kind ≠ .endOfInput) (hts : Ended ts) :
      Ended (t :: ts)

theorem Ended.append {xs : List Token} {e : Token} (hx : ∀ t ∈ xs, t.kind ≠ .endOfInput)
    (he : e.kind = .endOfInput) : Ended (xs ++ [e]) := by
  induction xs with
  | nil => exact .last he
  | cons x xs ih =>
    exact .cons (hx x List.mem_cons_self) (ih fun t ht => hx t (List.mem_cons_of_mem x ht))

theorem Ended.exists_cons {ts : List Token} (h : Ended ts) : ∃ t us, ts = t :: us := by
  cases h with
  | last h => exact ⟨_, _, rfl⟩
  | cons h hts => exact ⟨_, _, rfl⟩

theorem Ended.tail {t : Token} {ts : List Token} (h : Ended (t :: ts))
    (ht : t.kind ≠ .endOfInput) : Ended ts := by
  cases h with
  | last h => exact absurd h ht
  | cons _ hts => exact hts

theorem Ended.dropWhile {p : Kind → Bool} (hp : p .endOfInput = false) {ts : List Token}
    (h : Ended ts) : Ended (ts.dropWhile fun t => p t.kind) := by
  induction h with
  | last h => simpa [h, hp] using Ended.last h
  | @cons t ts h hts ih =>
    by_cases ht : p t.kind = true
    · simpa [ht] using ih
    · simpa [ht] using Ended.cons h hts

theorem Ended.exists_dropWhile {p : Kind → Bool} (hp : p .endOfInput = false) {ts : List Token}
    (h : Ended ts) : ∃ t us, ts.dropWhile (fun t => p t.kind) = t :: us ∧ p t.kind = false ∧
      Ended (t :: us) ∧ (t :: us).length ≤ ts.length := by
  have hdrop := h.dropWhile hp
  have hlen := (List.dropWhile_sublist (l := ts) fun t => p t.kind).length_le
  have hnot := List.head?_dropWhile_not (fun t : Token => p t.kind) ts
  obtain ⟨t, us, hus⟩ := hdrop.exists_cons
  rw [hus] at hdrop hlen hnot
  exact ⟨t, us, hus, by simpa using hnot, hdrop, hlen⟩

/-- What is ahead once newlines are passed where they mean nothing. -/
def settle (es : List Enclosure) (ts : List Token) : List Token :=
  if es.head? = some .round then ts.dropWhile fun t => t.kind.isNewline else ts

theorem settle_settle (es : List Enclosure) (ts : List Token) :
    settle es (settle es ts) = settle es ts := by
  unfold settle
  split
  · exact List.dropWhile_idempotent _ _
  · rfl

theorem length_settle_le (es : List Enclosure) (ts : List Token) :
    (settle es ts).length ≤ ts.length := by
  unfold settle
  split
  · exact (List.dropWhile_sublist _).length_le
  · exact le_refl _

theorem Ended.settle {es : List Enclosure} {ts : List Token} (h : Ended ts) :
    Ended (settle es ts) := by
  unfold MatrixCalculator.settle
  split
  · exact h.dropWhile rfl
  · exact h

/-- Not for a fault of the reader itself. -/
def Stop.Sound (stop : Stop) : Prop := ∀ b, stop ≠ .broken b

namespace Cursor

/-- The cursor moved on to the tokens `ts`, which lie ahead of it. -/
def moveTo (c : Cursor) (ts : List Token) : Cursor :=
  { c with passed := c.passed + (c.rest.length - ts.length), rest := ts }

def within (c : Cursor) (e : Enclosure) : Cursor := { c with enclosures := e :: c.enclosures }

def deeper (c : Cursor) : Cursor := { c with depth := c.depth + 1 }

/-- The end of input comes last, and the current token is no newline that means nothing. -/
structure Ready (c : Cursor) : Prop where
  ended : Ended c.rest
  settled : settle c.enclosures c.rest = c.rest

@[simp] theorem rest_moveTo (c : Cursor) (ts : List Token) : (c.moveTo ts).rest = ts := rfl

@[simp] theorem enclosures_moveTo (c : Cursor) (ts : List Token) :
    (c.moveTo ts).enclosures = c.enclosures := rfl

theorem moveTo_within (c : Cursor) (e : Enclosure) (ts : List Token) :
    (c.within e).moveTo ts = (c.moveTo ts).within e := rfl

theorem moveTo_rest (c : Cursor) : c.moveTo c.rest = c := by
  simp [moveTo]

theorem moveTo_moveTo {c : Cursor} {ts us : List Token} (hts : ts.length ≤ c.rest.length)
    (hus : us.length ≤ ts.length) : (c.moveTo ts).moveTo us = c.moveTo us := by
  simp only [moveTo, Cursor.mk.injEq, and_true]
  omega

theorem ready_settle {c : Cursor} {ts : List Token} (h : Ended ts) :
    (c.moveTo (settle c.enclosures ts)).Ready :=
  ⟨h.settle, settle_settle _ _⟩

theorem Ready.not_newline {c : Cursor} {t : Token} {ts : List Token} (h : c.Ready)
    (hc : c.rest = t :: ts) (he : c.enclosures.head? = some .round) : t.kind.isNewline = false := by
  have hs := h.settled
  rw [hc, settle, if_pos he] at hs
  by_contra ht
  rw [List.dropWhile_cons_of_pos (by simpa using ht)] at hs
  have hl := (List.dropWhile_sublist (l := ts) fun t => t.kind.isNewline).length_le
  rw [hs, List.length_cons] at hl
  omega

end Cursor

namespace Reader

variable {α β : Type} {c c' : Cursor} {t : Token} {ts : List Token}

theorem bind_ok {x : Reader α} {f : α → Reader β} {a : α} (h : x c = .ok a c') :
    (x >>= f) c = f a c' := by
  change EStateM.bind x f c = _
  simp only [EStateM.bind, h]

theorem bind_error {x : Reader α} {f : α → Reader β} {stop : Stop} (h : x c = .error stop c') :
    (x >>= f) c = .error stop c' := by
  change EStateM.bind x f c = _
  simp only [EStateM.bind, h]

theorem discard_ok {x : Reader α} {a : α} (h : x c = .ok a c') :
    (discard x : Reader PUnit) c = .ok () c' := by
  change EStateM.map _ x c = _
  simp only [EStateM.map, h, Function.const_apply]

theorem discard_error {x : Reader α} {stop : Stop} (h : x c = .error stop c') :
    (discard x : Reader PUnit) c = .error stop c' := by
  change EStateM.map _ x c = _
  simp only [EStateM.map, h]

theorem get_eq : (get : Reader Cursor) c = .ok c c := rfl

theorem current_eq (h : c.rest = t :: ts) : current c = .ok t c := by
  rw [current, bind_ok get_eq, h]
  rfl

theorem reject_eq (h : c.rest = t :: ts) (reason : Reason) :
    (reject reason : Reader α) c = .error (.malformed t.line t.column reason) c := by
  rw [reject, bind_ok (current_eq h)]
  rfl

theorem skipRun_eq {p : Kind → Bool} (hp : p .endOfInput = false) (h : Ended ts) (n : Nat) :
    skipRun p n ts = some (n + (ts.length - (ts.dropWhile fun t => p t.kind).length),
      ts.dropWhile fun t => p t.kind) := by
  induction h generalizing n with
  | last h => simp [skipRun, h, hp]
  | @cons t ts h hts ih =>
    by_cases ht : p t.kind = true
    · have hl := (List.dropWhile_sublist (l := ts) fun t => p t.kind).length_le
      simp only [skipRun, ht, if_true, ih, List.dropWhile_cons, List.length_cons]
      congr 2
      omega
    · simp [skipRun, ht]

theorem skip_eq {p : Kind → Bool} (hp : p .endOfInput = false) (h : Ended c.rest) :
    skip p c = .ok () (c.moveTo (c.rest.dropWhile fun t => p t.kind)) := by
  rw [skip, bind_ok get_eq, skipRun_eq hp h]
  rfl

theorem advance_eq (h : c.rest = t :: ts) (hts : Ended ts) :
    advance c = .ok () (c.moveTo (settle c.enclosures ts)) := by
  obtain ⟨next, us, rfl⟩ := hts.exists_cons
  rw [advance, bind_ok get_eq, h]
  have hone : { c with passed := c.passed + 1, rest := next :: us } = c.moveTo (next :: us) := by
    simp [Cursor.moveTo, h]
  change (if c.enclosures.head? = some .round then skip Kind.isNewline else pure () : Reader Unit)
    { c with passed := c.passed + 1, rest := next :: us } = _
  rw [hone]
  unfold settle
  split
  · have hl := (List.dropWhile_sublist (l := next :: us) fun t => t.kind.isNewline).length_le
    rw [skip_eq rfl hts, Cursor.rest_moveTo, Cursor.moveTo_moveTo (by simp [h]) hl]
  · rfl

theorem take_eq (h : c.rest = t :: ts) (hts : Ended ts) :
    take c = .ok t (c.moveTo (settle c.enclosures ts)) := by
  rw [take, bind_ok (current_eq h), bind_ok (advance_eq h hts)]
  rfl

theorem isSymbol_iff {s : Symbol} {k : Kind} : k.isSymbol s = true ↔ k = .symbol s := by
  cases k with
  | symbol s' => simpa [Kind.isSymbol] using eq_comm
  | _ => simp [Kind.isSymbol]

theorem isEnd_iff {k : Kind} : k.isEnd = true ↔ k = .endOfInput := by
  cases k <;> simp [Kind.isEnd]

theorem eat_eq {s : Symbol} (h : c.rest = t :: ts) (hts : Ended ts) (ht : t.kind = .symbol s) :
    eat s c = .ok t (c.moveTo (settle c.enclosures ts)) := by
  rw [eat, bind_ok (current_eq h), if_pos (isSymbol_iff.mpr ht), take_eq h hts]

theorem eat_error {s : Symbol} (h : c.rest = t :: ts) (ht : t.kind ≠ .symbol s) :
    ∃ stop : Stop, eat s c = .error stop c ∧ stop.Sound ∧ Assembly.lacking s t = .stopped stop := by
  rw [eat, bind_ok (current_eq h), if_neg (by simpa [isSymbol_iff] using ht), Assembly.lacking]
  by_cases he : t.kind.isEnd = true
  · simp only [he, if_true]
    exact ⟨.incomplete, rfl, by simp [Stop.Sound], rfl⟩
  · simp only [he]
    exact ⟨.malformed t.line t.column (.expected s t.kind), rfl, by simp [Stop.Sound], rfl⟩

theorem enter_round_eq (h : Ended c.rest) :
    enter .round c =
      .ok () ((c.moveTo (c.rest.dropWhile fun t => t.kind.isNewline)).within .round) := by
  have hs : skip Kind.isNewline (c.within .round) = _ := skip_eq rfl h
  exact hs

theorem nested_ok {r : Reader α} {a : α} (h : r c.deeper = .ok a c') :
    nested r c = .ok a { c' with depth := c'.depth - 1 } := by
  rw [Cursor.deeper] at h
  rw [nested, h]

theorem nested_error {r : Reader α} {stop : Stop} (h : r c.deeper = .error stop c') :
    nested r c = .error stop { c' with depth := c'.depth - 1 } := by
  rw [Cursor.deeper] at h
  rw [nested, h]

theorem enter_matrix_eq : enter .matrix c = .ok () (c.within .matrix) := rfl

theorem leave_eq (e : Enclosure) : leave (c.within e) = .ok () c := rfl

end Reader

namespace Assembly

variable {limit : Nat} {ctx : Context} {t : Token} {ts : List Token}

/-- What the tokens make of an assembly that `k` says is made by the first of them. -/
def meet (limit : Nat) (k : Token → Assembly) : List Token → Assembly
  | [] => .stopped (.broken .pastEnd)
  | t :: ts => run limit (k t) ts

@[simp] theorem meet_cons {k : Token → Assembly} :
    meet limit k (t :: ts) = run limit (k t) ts := rfl

theorem isRound_iff : ctx.isRound = true ↔ ctx.enclosures.head? = some .round := by
  simp [Context.isRound]

/-- Newlines that mean nothing make no difference, and past them `k` decides. -/
theorem run_eq_meet {a : Assembly} {k : Token → Assembly}
    (hstep : ∀ t, step limit a t = if t.kind.isNewline && ctx.isRound then a else k t)
    (h : Ended ts) : run limit a ts = meet limit k (settle ctx.enclosures ts) := by
  have hk : ∀ us, Ended us → (∀ t vs, us = t :: vs → (t.kind.isNewline && ctx.isRound) = false) →
      run limit a us = meet limit k us := by
    intro us hus hhead
    obtain ⟨t, vs, rfl⟩ := hus.exists_cons
    rw [run_cons, hstep, if_neg (by simp [hhead t vs rfl]), meet_cons]
  -- In a round bracket the newlines ahead leave `a` as it is; elsewhere there is nothing to pass.
  unfold settle
  split
  · rename_i hr
    rw [← run_dropWhile (p := fun t => t.kind.isNewline) (by
      intro t ht
      rw [hstep, if_pos (by simp [ht, isRound_iff.mpr hr])])]
    refine hk _ (h.dropWhile rfl) fun t vs hv => ?_
    have hnot := List.head?_dropWhile_not (fun t : Token => t.kind.isNewline) ts
    rw [hv] at hnot
    simp_all
  · rename_i hr
    refine hk _ h fun t vs _ => ?_
    simp [Context.isRound, hr]

theorem run_operand (h : Ended ts) : run limit (.inside ctx .operand) ts =
    meet limit (start limit ctx) (settle ctx.enclosures ts) :=
  run_eq_meet (fun _ => rfl) h

theorem run_value {x : Phrase .indexed} (h : Ended ts) : run limit (.inside ctx (.value x)) ts =
    meet limit (afterIndexed ctx x) (settle ctx.enclosures ts) :=
  run_eq_meet (fun _ => rfl) h

theorem run_name {name : String} {p : Place} (h : Ended ts) :
    run limit (.inside ctx (.name name p)) ts =
      meet limit (afterName ctx name p) (settle ctx.enclosures ts) :=
  run_eq_meet (fun _ => rfl) h

end Assembly

open Assembly

/-- Started at `c`, the reader stops where `out` is stopped, or yields what `view` makes of
something with which `out` goes on, at fewer than `n` tokens ahead of `d`. -/
def Reads {α β : Type} (limit : Nat) (r : Reader α) (c d : Cursor) (n : Nat) (out : Assembly)
    (view : β → α) (k : β → Token → Assembly) : Prop :=
  (∃ b ts, r c = .ok (view b) (d.moveTo ts) ∧ ts.length < n ∧ (d.moveTo ts).Ready ∧
    out = meet limit (k b) ts) ∨
  (∃ stop c', r c = .error stop c' ∧ stop.Sound ∧ out = .stopped stop)

namespace Reads

variable {α α' β β' : Type} {limit n m : Nat} {r : Reader α} {c d d' : Cursor} {out : Assembly}
  {view : β → α} {view' : β' → α'} {k : β → Token → Assembly} {k' : β' → Token → Assembly}

theorem bind {f : α → Reader α'} (h : Reads limit r c d n out view k)
    (hf : ∀ b ts, ts.length < n → (d.moveTo ts).Ready →
      Reads limit (f (view b)) (d.moveTo ts) d' m (meet limit (k b) ts) view' k') :
    Reads limit (r >>= f) c d' m out view' k' := by
  rcases h with ⟨b, ts, hr, hlen, hready, rfl⟩ | ⟨stop, c', hr, hs, rfl⟩
  · have hok := hf b ts hlen hready
    unfold Reads at hok ⊢
    rwa [Reader.bind_ok hr]
  · exact .inr ⟨stop, c', Reader.bind_error hr, hs, rfl⟩

theorem after {x : Reader α} {f : α → Reader α'} {a : α} {c' : Cursor} (hx : x c = .ok a c')
    (h : Reads limit (f a) c' d n out view' k') : Reads limit (x >>= f) c d n out view' k' := by
  unfold Reads at h ⊢
  rwa [Reader.bind_ok hx]

theorem stop {stop : Stop} {c' : Cursor} (hr : r c = .error stop c') (hs : stop.Sound)
    (hout : out = .stopped stop) : Reads limit r c d n out view k :=
  .inr ⟨stop, c', hr, hs, hout⟩

theorem ok (b : β) (ts : List Token) (hr : r c = .ok (view b) (d.moveTo ts)) (hlen : ts.length < n)
    (hready : (d.moveTo ts).Ready) (hout : out = meet limit (k b) ts) :
    Reads limit r c d n out view k :=
  .inl ⟨b, ts, hr, hlen, hready, hout⟩

theorem nested (h : Reads limit r c.deeper c.deeper n out view k) :
    Reads limit (Reader.nested r) c c n out view k := by
  rcases h with ⟨b, ts, hr, hlen, hready, hout⟩ | ⟨stop, c', hr, hs, hout⟩
  · refine ok b ts ?_ hlen ⟨hready.ended, hready.settled⟩ hout
    rw [Reader.nested_ok hr]
    rfl
  · refine .inr ⟨stop, { c' with depth := c'.depth - 1 }, ?_, hs, hout⟩
    exact Reader.nested_error hr

theorem rebase {us : List Token} (h : Reads limit r c (d.moveTo us) n out view k)
    (hus : us.length ≤ d.rest.length) (hn : n ≤ us.length + 1) (hm : n ≤ m) :
    Reads limit r c d m out view k := by
  rcases h with ⟨b, ts, hr, hlen, hready, hout⟩ | hstop
  · have hmove : (d.moveTo us).moveTo ts = d.moveTo ts := Cursor.moveTo_moveTo hus (by omega)
    rw [hmove] at hr hready
    exact ok b ts hr (by omega) hready hout
  · exact .inr hstop

theorem here (b : β) (hready : c.Ready) (hout : out = meet limit (k b) c.rest) :
    Reads limit (pure (view b)) c c (c.rest.length + 1) out view k :=
  ok b c.rest (by rw [Cursor.moveTo_rest]; rfl) (by omega)
    (by rwa [Cursor.moveTo_rest]) hout

theorem rename {view' : β' → α} {k' : β' → Token → Assembly} (g : β → β')
    (hview : ∀ b, view' (g b) = view b) (hk : ∀ b, k' (g b) = k b)
    (h : Reads limit r c d n out view k) : Reads limit r c d n out view' k' := by
  rcases h with ⟨b, ts, hr, hlen, hready, hout⟩ | hstop
  · exact ok (g b) ts (by rw [hview, hr]) hlen hready (by rw [hk, hout])
  · exact .inr hstop

end Reads

/-- The reader reads unary expressions where `n` levels may still be opened. -/
def ReadsUnary (limit n : Nat) (r : Reader Node) : Prop :=
  ∀ (ctx : Context) (c : Cursor), ctx.used + n = limit → c.enclosures = ctx.enclosures → c.Ready →
    Reads limit r c c c.rest.length (meet limit (start limit ctx) c.rest) Phrase.tree
      (afterUnary ctx)

/-- The reader reads expressions where `n` levels may still be opened. -/
def ReadsExpression (limit n : Nat) (r : Reader Node) : Prop :=
  ∀ (ctx : Context) (c : Cursor), ctx.used + n = limit → ctx.level = .fresh →
    c.enclosures = ctx.enclosures → c.Ready →
    Reads limit r c c c.rest.length (meet limit (start limit ctx) c.rest) Phrase.tree (close ctx)

namespace Reader

variable {limit n : Nat} {es : List Enclosure} {β ν : Type}

theorem rounds_eq (c : Cursor) : rounds c = .ok c.rest.length c := rfl

theorem chainFrom_reads {op? : Kind → Option BinaryOp} {operand : Reader Node} {tree : β → Node}
    {tree' : ν → Node} {k done : β → Token → Assembly}
    (hop : ∀ b t op, op? t.kind = some op → ∃ (ctx : Context) (join : ν → β),
      k b t = .inside ctx .operand ∧ ctx.enclosures = es ∧
      (∀ v, tree (join v) = .binary op (tree b) (tree' v) t.line) ∧
      ∀ c : Cursor, c.enclosures = es → c.Ready → Reads limit operand c c c.rest.length
        (meet limit (start limit ctx) c.rest) tree' fun v => k (join v))
    (hend : op? .endOfInput = none) (hdone : ∀ b t, op? t.kind = none → k b t = done b t)
    (fuel : Nat) (c : Cursor) (b : β) (hc : c.enclosures = es) (hready : c.Ready)
    (hfuel : c.rest.length ≤ fuel) :
    Reads limit (chainFrom op? operand fuel (tree b)) c c (c.rest.length + 1)
      (meet limit (k b) c.rest) tree done := by
  obtain ⟨t, ts, h⟩ := hready.ended.exists_cons
  -- Each operator takes a token, and what has been read before it becomes the left operand `b`.
  induction fuel generalizing c b t ts with
  | zero => simp [h] at hfuel
  | succ n ih =>
    unfold chainFrom
    refine .after (current_eq h) ?_
    cases hop' : op? t.kind with
    | none => exact .here b hready (by rw [h, meet_cons, meet_cons, hdone b t hop'])
    | some op =>
      obtain ⟨ctx, join, hk, hctx, hjoin, hoperand⟩ := hop b t op hop'
      have hts : Ended ts := (h ▸ hready.ended).tail (by rintro he; simp [he, hend] at hop')
      have hlen := length_settle_le c.enclosures ts
      have hnext := hoperand (c.moveTo (settle c.enclosures ts)) hc (Cursor.ready_settle hts)
      rw [Cursor.rest_moveTo, hc, ← hctx, ← run_operand hts, ← hk, ← meet_cons, ← h, hctx,
        ← hc] at hnext
      refine .after (take_eq h hts) (hnext.bind fun v us hus hus' => ?_)
      rw [Cursor.moveTo_moveTo (by simp [h]; omega) (by omega)] at hus' ⊢
      obtain ⟨t', ts', rfl⟩ := hus'.ended.exists_cons
      rw [← hjoin]
      have hrec := ih (c.moveTo (t' :: ts')) (join v) hc hus' (by simp [h] at *; omega) t' ts' rfl
      exact hrec.rebase (by simp [h] at *; omega) (by simp) (by simp [h] at *; omega)

theorem chain_reads {op? : Kind → Option BinaryOp} {operand : Reader Node} {tree : β → Node}
    {tree' : ν → Node} {done : β → Token → Assembly} {out : Assembly} (k : β → Token → Assembly)
    (single : ν → β)
    (hop : ∀ b t op, op? t.kind = some op → ∃ (ctx : Context) (join : ν → β),
      k b t = .inside ctx .operand ∧ ctx.enclosures = es ∧
      (∀ v, tree (join v) = .binary op (tree b) (tree' v) t.line) ∧
      ∀ c : Cursor, c.enclosures = es → c.Ready → Reads limit operand c c c.rest.length
        (meet limit (start limit ctx) c.rest) tree' fun v => k (join v))
    (hend : op? .endOfInput = none) (hdone : ∀ b t, op? t.kind = none → k b t = done b t)
    (hsingle : ∀ v, tree (single v) = tree' v) (c : Cursor) (hc : c.enclosures = es)
    (hfirst : Reads limit operand c c c.rest.length out tree' fun v => k (single v)) :
    Reads limit (chain op? operand) c c c.rest.length out tree done := by
  refine hfirst.bind fun v ts hts hready => .after (rounds_eq _) ?_
  rw [← hsingle]
  have hrest := chainFrom_reads hop hend hdone ts.length (c.moveTo ts) (single v) hc hready le_rfl
  exact hrest.rebase (by omega) (le_refl _) hts

theorem term_reads {unary : Reader Node} (hu : ReadsUnary limit n unary) {ctx : Context}
    {c : Cursor} (hn : ctx.used + n = limit) (hproduct : ctx.level.product = none)
    (hsigns : ctx.level.signs = []) (hc : c.enclosures = ctx.enclosures) (hready : c.Ready) :
    Reads limit (chain multiplicative? unary) c c c.rest.length
      (meet limit (start limit ctx) c.rest) Phrase.tree
      fun x => afterExpression ctx (ctx.level.closeSum x) := by
  refine chain_reads (afterTerm ctx) .ofUnary ?_ rfl (fun _ _ h => afterTerm_of_none h)
    (fun _ => rfl) c hc ?_
  · intro b t op h
    obtain ⟨o, rfl, hk⟩ := afterTerm_of_some ctx b h
    refine ⟨_, .product b o t.place, hk, rfl, fun _ => rfl, fun c hc hready => ?_⟩
    have hused : (ctx.withProduct b o t.place).used = ctx.used := by
      simp [Context.used, Context.withProduct, hsigns]
    exact hu (ctx.withProduct b o t.place) c (by omega) hc hready
  · refine (hu ctx c hn hc hready).rename id (fun _ => rfl) fun u => ?_
    funext t
    simp [afterUnary, Level.closeProduct, Level.closeSigns, hproduct, hsigns]

theorem expression_reads {unary : Reader Node} (hu : ReadsUnary limit n unary) :
    ReadsExpression limit n (expression unary) := by
  intro ctx c hn hlevel hc hready
  refine chain_reads (afterExpression ctx) .ofTerm ?_ rfl (fun _ _ h => afterExpression_of_none h)
    (fun _ => rfl) c hc ?_
  · intro b t op h
    obtain ⟨o, rfl, hk⟩ := afterExpression_of_some ctx b h
    refine ⟨_, .sum b o t.place, hk, rfl, fun _ => rfl, fun c hc hready => ?_⟩
    have hused : (ctx.withSum b o t.place).used = ctx.used := by
      simp [Context.used, Context.withSum, hlevel, Level.fresh]
    exact term_reads hu (by omega) rfl rfl hc hready
  · refine (term_reads hu hn (by rw [hlevel]; rfl) (by rw [hlevel]; rfl) hc hready).rename id
      (fun _ => rfl) fun x => ?_
    rw [hlevel]
    rfl

/-- Further items: `k` takes a comma to the next one and leaves other tokens to `done`. -/
theorem itemsFrom_reads {expr : Reader Node} {k done : Phrase .items → Token → Assembly}
    (hcomma : ∀ b t, t.kind = .symbol .comma → ∃ ctx : Context, k b t = .inside ctx .operand ∧
      ctx.enclosures = es ∧ ∀ c : Cursor, c.enclosures = es → c.Ready →
        Reads limit expr c c c.rest.length (meet limit (start limit ctx) c.rest) Phrase.tree
          fun e => k (.more b t.place e))
    (hdone : ∀ b t, t.kind ≠ .symbol .comma → k b t = done b t)
    (fuel : Nat) (c : Cursor) (b : Phrase .items) (hc : c.enclosures = es) (hready : c.Ready)
    (hfuel : c.rest.length ≤ fuel) :
    Reads limit (itemsFrom expr fuel b.tree.reverse) c c (c.rest.length + 1)
      (meet limit (k b) c.rest) Phrase.tree done := by
  obtain ⟨t, ts, h⟩ := hready.ended.exists_cons
  induction fuel generalizing c b t ts with
  | zero => simp [h] at hfuel
  | succ n ih =>
    unfold itemsFrom
    refine .after (current_eq h) ?_
    by_cases ht : t.kind = .symbol .comma
    · obtain ⟨ctx, hk, hctx, hitem⟩ := hcomma b t ht
      have hts : Ended ts := (h ▸ hready.ended).tail (by simp [ht])
      have hlen := length_settle_le c.enclosures ts
      have hnext := hitem (c.moveTo (settle c.enclosures ts)) hc (Cursor.ready_settle hts)
      rw [Cursor.rest_moveTo, hc, ← hctx, ← run_operand hts, ← hk, ← meet_cons, ← h, hctx,
        ← hc] at hnext
      rw [if_pos (isSymbol_iff.mpr ht)]
      refine .after (discard_ok (eat_eq h hts ht)) (hnext.bind fun e us hus hus' => ?_)
      rw [Cursor.moveTo_moveTo (by simp [h]; omega) (by omega)] at hus' ⊢
      obtain ⟨t', ts', rfl⟩ := hus'.ended.exists_cons
      have hrec := ih (c.moveTo (t' :: ts')) (.more b t.place e) hc hus' (by simp [h] at *; omega)
        t' ts' rfl
      simp only [Phrase.tree, List.reverse_append, List.reverse_singleton] at hrec
      exact hrec.rebase (by simp [h] at *; omega) (by simp) (by simp [h] at *; omega)
    · rw [if_neg (by simpa [isSymbol_iff] using ht)]
      have hlast : b.tree = b.tree.reverse.reverse := by simp
      rw [← hlast]
      exact .here b hready (by rw [h, meet_cons, meet_cons, hdone b t ht])

theorem items_reads {expr : Reader Node} {done : Phrase .items → Token → Assembly} {out : Assembly}
    (k : Phrase .items → Token → Assembly)
    (hcomma : ∀ b t, t.kind = .symbol .comma → ∃ ctx : Context, k b t = .inside ctx .operand ∧
      ctx.enclosures = es ∧ ∀ c : Cursor, c.enclosures = es → c.Ready →
        Reads limit expr c c c.rest.length (meet limit (start limit ctx) c.rest) Phrase.tree
          fun e => k (.more b t.place e))
    (hdone : ∀ b t, t.kind ≠ .symbol .comma → k b t = done b t)
    (c : Cursor) (hc : c.enclosures = es)
    (hfirst : Reads limit expr c c c.rest.length out Phrase.tree fun e => k (.item e)) :
    Reads limit (items expr) c c c.rest.length out Phrase.tree done := by
  refine hfirst.bind fun e ts hts hready => .after (rounds_eq _) ?_
  have hrest := itemsFrom_reads hcomma hdone ts.length (c.moveTo ts) (.item e) hc hready le_rfl
  exact hrest.rebase (by omega) (le_refl _) hts

theorem close_reads {α : Type} {ctx : Context} {c : Cursor} (s : Symbol)
    (x : Place → Phrase .indexed) (e : Enclosure) (a : α) (hc : c.enclosures = ctx.enclosures)
    (hended : Ended c.rest) :
    Reads limit (do leave; discard (eat s); return a) (c.within e) c c.rest.length
      (meet limit (closeWith ctx s x) c.rest) (fun _ => a) fun r => afterIndexed ctx (x r) := by
  obtain ⟨t, ts, h⟩ := hended.exists_cons
  refine .after (leave_eq e) ?_
  rw [h, meet_cons, closeWith]
  by_cases ht : t.kind = .symbol s
  · have hts : Ended ts := (h ▸ hended).tail (by simp [ht])
    have hlen := length_settle_le c.enclosures ts
    rw [if_pos (isSymbol_iff.mpr ht)]
    refine .after (discard_ok (eat_eq h hts ht)) (.ok t.place _ rfl ?_ (Cursor.ready_settle hts) ?_)
    · simp
      omega
    · rw [run_value hts, hc]
  · rw [if_neg (by simpa [isSymbol_iff] using ht)]
    obtain ⟨stop, heat, hs, hlack⟩ := eat_error (s := s) h ht
    rw [hlack, run_stopped]
    exact .stop (bind_error (discard_error heat)) hs rfl

end Reader

end MatrixCalculator
