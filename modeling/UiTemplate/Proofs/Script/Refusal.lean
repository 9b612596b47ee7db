import UiTemplate.Proofs.Script.Takes
import UiTemplate.Script.Grammar

/-!
# Scripts that are refused

A parenthesis, a word and then what is no token begin no script, whichever word it is
(`statements?_eq_none`).

- `Leaves p ts after`: where the tokens `ts` stand, the reader `p` fails unless it stops at `after`.
- `Rules.Stuck`: no rule reads on where no token stands.
-/

namespace UiTemplate.Script

/-- Where the tokens `ts` stand and nothing after them, the reader fails, or it stops at the tokens
`after`; if there are none such, it fails. -/
def Leaves {α : Type} (p : Reader α) (ts : List Token) (after : Option (List Token)) : Prop :=
  ∀ c, c.At ts [] → ∀ a d, p c = some (a, d) → ∃ us ∈ after, d.At us []

namespace Leaves

open Reader

variable {α β : Type} {p : Reader α} {ts us rest : List Token} {after : Option (List Token)}
  {t u : Token}

/-! ## Steps -/

theorem fails : Leaves (fail : Reader α) ts after :=
  fun _ _ _ _ h => nomatch h

/-- A reader that leaves nothing has failed. -/
theorem eq_none (h : Leaves p ts none) {c : Cursor} (hc : c.At ts []) : p c = none := by
  by_contra hp
  obtain ⟨⟨a, d⟩, hp⟩ := Option.ne_none_iff_exists'.mp hp
  obtain ⟨us, hus, -⟩ := h c hc a d hp
  exact nomatch hus

protected theorem pure (a : α) : Leaves (pure a) ts (some ts) := by
  rintro c hc _ _ ⟨⟩
  exact ⟨ts, rfl, hc⟩

/-- The second of two readers goes on where the first one stops. -/
theorem bind {f : α → Reader β} (hp : Leaves p ts (some us)) (hf : ∀ a, Leaves (f a) us after) :
    Leaves (p >>= f) ts after := by
  intro c hc b e h
  obtain ⟨⟨a, d⟩, hpc, hfd⟩ := Option.bind_eq_some_iff.mp h
  obtain ⟨_, ⟨⟩, hd⟩ := hp c hc a d hpc
  exact hf a d hd b e hfd

/-- The first part fails. -/
theorem bind_none {f : α → Reader β} (hp : Leaves p ts none) : Leaves (p >>= f) ts after := by
  intro c hc b e h
  obtain ⟨⟨a, d⟩, hpc, -⟩ := Option.bind_eq_some_iff.mp h
  obtain ⟨_, hus, -⟩ := hp c hc a d hpc
  exact nomatch hus

/-- A step that gives back part of where the reading stands. -/
theorem bind_read {f : α → Reader β} (g : Cursor → α) (hg : ∀ c, p c = some (g c, c))
    (hf : ∀ c, c.At ts [] → Leaves (f (g c)) ts after) : Leaves (p >>= f) ts after := by
  intro c hc b d h
  obtain ⟨⟨a, e⟩, hpc, hfe⟩ := Option.bind_eq_some_iff.mp h
  rw [hg] at hpc
  cases hpc
  exact hf c hc c hc b d hfe

theorem bind_start {f : Nat → Reader β} (hf : ∀ n, Leaves (f n) ts after) :
    Leaves (start >>= f) ts after :=
  bind_read (fun c => c.current.start) (fun _ => rfl) fun c _ => hf c.current.start

theorem bind_newline {f : Bool → Reader β} (hf : ∀ b, Leaves (f b) ts after) :
    Leaves (newline >>= f) ts after :=
  bind_read (fun c => c.current.newline) (fun _ => rfl) fun c _ => hf c.current.newline

theorem bind_get {f : Cursor → Reader β} (hf : ∀ c, Leaves (f c) ts after) :
    Leaves (get >>= f) ts after :=
  bind_read id (fun _ => rfl) fun c _ => hf c

theorem bind_token {f : Token → Reader β} (hf : Leaves (f t) (t :: ts) after) :
    Leaves (token >>= f) (t :: ts) after := by
  refine bind_read (fun c => c.current.token) (fun _ => rfl) fun c hc => ?_
  rw [hc.token_eq]
  exact hf

theorem bind_at {f : Bool → Reader β} {q : Punct} (hf : Leaves (f (isPunct q t)) (t :: ts) after) :
    Leaves (at? q >>= f) (t :: ts) after := by
  refine bind_read (fun c => isPunct q c.current.token) (fun _ => rfl) fun c hc => ?_
  rw [hc.token_eq]
  exact hf

theorem bind_lookahead {f : Lexeme → Reader β}
    (hf : ∀ l, l.token = u → Leaves (f l) (t :: u :: ts) after) :
    Leaves (lookahead >>= f) (t :: u :: ts) after :=
  bind_read (fun c => c.advanced.current) (fun _ => rfl) fun _ hc => hf _ hc.advanced.token_eq

/-- The tokens after the current one, of which the first is known. -/
theorem bind_ahead {f : List Lexeme → Reader β} {n : Nat}
    (hf : ∀ l more, l.token = u → more.length = n → Leaves (f (l :: more)) (t :: u :: ts) after) :
    Leaves (ahead (n + 1) >>= f) (t :: u :: ts) after := by
  have hlength (n pos : Nat) (cs : List Char) : (lexemes n pos cs).length = n := by
    induction n generalizing pos cs with
    | zero => rfl
    | succ n ih => rw [lexemes, List.length_cons, ih]
  refine bind_read (fun c => lexemes (n + 1) c.current.stop c.rest) (fun _ => rfl) fun c hc => ?_
  exact hf _ _ hc.advanced.token_eq (hlength n _ _)

theorem bind_advance {f : Unit → Reader β} (hf : Leaves (f ()) (u :: ts) after) :
    Leaves (advance >>= f) (t :: u :: ts) after :=
  fun _ hc b d h => hf _ hc.advanced b d h

theorem bind_require {f : Unit → Reader β} {b : Bool} (hf : Leaves (f ()) ts after) :
    Leaves (require b >>= f) ts after := by
  cases b with
  | true => exact hf
  | false => exact bind_none fails

theorem bind_eat {f : Bool → Reader β} {q : Punct} (ht : isPunct q t = false)
    (hf : Leaves (f false) (t :: ts) after) : Leaves (eat q >>= f) (t :: ts) after := by
  rw [eat, bind_assoc]
  refine bind_at ?_
  rw [ht]
  exact hf

/-- A punctuator that is asked for and does not stand there. -/
theorem bind_expect {f : Unit → Reader β} {q : Punct} (ht : isPunct q t = false) :
    Leaves (expect q >>= f) (t :: ts) after := by
  rw [expect, bind_assoc]
  exact bind_eat ht (bind_none fails)

theorem bind_eatWord {f : Bool → Reader β} {word : String} (ht : isKeyword word t = false)
    (hf : Leaves (f false) (t :: ts) after) : Leaves (eatWord word >>= f) (t :: ts) after := by
  rw [eatWord, bind_assoc, atWord, bind_assoc]
  refine bind_token ?_
  rw [pure_bind, ht]
  exact hf

/-! ## Loops -/

variable {step : α → Reader (α ⊕ β)} {a : α}

/-- A loop that takes nothing. -/
theorem repeatFrom_nothing {b : β} (h : Takes (step a) [] ts (· = .inr b)) :
    Leaves (repeatFrom a step) ts (some ts) := by
  have htakes : Takes (Reader.repeatFrom a step) [] ts (· = b) :=
    Takes.repeatFrom fun _ hn => Takes.iterate_nothing h rfl (by omega)
  intro c hc a d hp
  obtain ⟨_, _, hp', -, hd, -⟩ := htakes c [] hc
  rw [hp] at hp'
  cases hp'
  exact ⟨ts, rfl, hd⟩

/-- A loop whose first step fails. -/
theorem repeatFrom_none (h : Leaves (step a) ts none) : Leaves (repeatFrom a step) ts none :=
  bind_read id (fun _ => rfl) fun _ _ => bind_none h

/-- A list of which an item stands before what is neither a comma nor the closing punctuator. -/
theorem delimited {item : Reader α} {close : Punct} (ht : isPunct close t = false)
    (hitem : Leaves item (t :: ts) (some (u :: us))) (hu : isPunct close u = false)
    (hcomma : isPunct .comma u = false) : Leaves (delimited close item) (t :: ts) none := by
  rw [delimited_eq]
  refine repeatFrom_none ?_
  rw [delimitedStep]
  refine bind_eat ht (bind hitem fun a => ?_)
  exact bind_eat hcomma (bind_expect hu)

end Leaves

/-! ## Rules -/

open Reader

/-- Rules that read nothing where no token stands, and nothing but a word before that. -/
structure Rules.Stuck (r : Rules) : Prop where
  assignment : ∀ ctx, Leaves (r.assignment ctx) [.invalid] Option.none
  unary : ∀ ctx, Leaves (r.unary ctx) [.invalid] Option.none
  subject : ∀ ctx, Leaves (r.subject ctx) [.invalid] Option.none
  word : ∀ ctx name, Leaves (r.assignment ctx) [.word name false, .invalid] (some [.invalid])

section Stuck

variable {r : Rules} {ctx : Context} {name : String}

theorem primary_stuck : Leaves (primary r ctx) [.invalid] none := by
  rw [primary]
  exact .bind_start fun _ => .bind_token .fails

theorem chainTerm_stuck : Leaves (chainTerm r ctx) [.invalid] none := by
  rw [chainTerm]
  exact .bind_start fun _ => .bind_none primary_stuck

theorem subjectTerm_stuck : Leaves (subjectTerm r ctx) [.invalid] none := by
  rw [subjectTerm]
  exact .bind_start fun _ => .bind_none primary_stuck

theorem unaryTerm_stuck : Leaves (unaryTerm r ctx) [.invalid] none := by
  rw [unaryTerm]
  exact .bind_start fun _ => .bind_token (.bind_none chainTerm_stuck)

theorem operatorsTerm_stuck : Leaves (operatorsTerm r ctx) [.invalid] none := by
  rw [operatorsTerm]
  refine .bind_start fun _ => .bind_none ?_
  rw [binaryTerm]
  exact .bind_at (.bind_token (.bind_none unaryTerm_stuck))

/-- No expression begins with a character that begins no token. -/
theorem assignmentTerm_stuck : Leaves (assignmentTerm r ctx) [.invalid] none := by
  rw [assignmentTerm]
  exact .bind_token operatorsTerm_stuck

/-! ### Behind a word -/

theorem functionAfterKeyword_stuck (async value : Bool) :
    Leaves (functionAfterKeyword r ctx async value) [.invalid] none := by
  have hparameters (ctx : Context) : Leaves (parameters r ctx) [.invalid] none := by
    rw [parameters]
    exact .bind_expect rfl
  rw [functionAfterKeyword]
  refine .bind_eat rfl (.bind_token (.bind (.pure none) fun _ => .bind_none ?_))
  rw [functionRest]
  exact .bind_none (hparameters _)

theorem classAfterKeyword_stuck : Leaves (classAfterKeyword r ctx) [.invalid] none := by
  have hheritage : Leaves (heritage r ctx) [.invalid] (some [.invalid]) := by
    rw [heritage]
    exact .bind_eatWord rfl (.bind_eatWord rfl (.pure ()))
  rw [classAfterKeyword]
  exact .bind_token (.bind (.pure none) fun _ => .bind hheritage fun _ => .bind_expect rfl)

theorem nameTerm_stops : Leaves (nameTerm ctx name) [.word name false, .invalid] (some [.invalid]) := by
  rw [nameTerm]
  exact .bind_require (.bind_get fun _ => .bind_advance (.pure _))

/-- A word is taken, and nothing of what is behind it. -/
theorem wordTerm_stops (hr : r.Stuck) :
    Leaves (wordTerm r ctx name) [.word name false, .invalid] (some [.invalid]) := by
  rw [wordTerm]
  refine .bind_start fun start => ?_
  split
  · exact .bind_advance (.pure _)
  · exact .bind_advance (.pure _)
  · exact .bind_advance (.pure _)
  · exact .bind_advance (.pure _)
  · exact .bind_advance (.bind_none (functionAfterKeyword_stuck false true))
  · exact .bind_advance (.bind_none classAfterKeyword_stuck)
  · rw [newTerm]
    exact .bind_start fun _ => .bind_advance (.bind_eat rfl (.bind_none (hr.subject ctx)))
  · rw [importTerm]
    refine .bind_start fun _ => .bind_advance (.bind_eat rfl ?_)
    rw [importCall]
    exact .bind_expect rfl
  · exact .bind_advance (.bind_token .fails)
  · refine .bind_lookahead fun l hl => ?_
    rw [hl, show isKeyword "function" .invalid = false from rfl, Bool.and_false, Bool.false_and]
    exact nameTerm_stops

/-- So is a word as a term. -/
theorem primary_stops (hr : r.Stuck) :
    Leaves (primary r ctx) [.word name false, .invalid] (some [.invalid]) := by
  rw [primary]
  exact .bind_start fun _ => .bind_token (wordTerm_stops hr)

theorem chainTerm_stops (hr : r.Stuck) :
    Leaves (chainTerm r ctx) [.word name false, .invalid] (some [.invalid]) := by
  rw [chainTerm]
  refine .bind_start fun start => .bind (primary_stops hr) fun t => ?_
  rw [chainRest]
  exact .repeatFrom_nothing (Takes.bind_token rfl (Takes.pure rfl))

theorem unaryTerm_stops (hr : r.Stuck) :
    Leaves (unaryTerm r ctx) [.word name false, .invalid] (some [.invalid]) := by
  have hoperand (start : Nat) : Leaves (do incrementRest start (← chainTerm r ctx))
      [.word name false, .invalid] (some [.invalid]) := by
    refine .bind (chainTerm_stops hr) fun t => ?_
    rw [incrementRest]
    exact .bind_token (.pure t)
  rw [unaryTerm]
  refine .bind_start fun start => .bind_token ?_
  split
  · exact .bind_advance (.bind_none (hr.unary ctx))
  · dsimp only
    split
    · exact .bind_advance (.bind_none (hr.unary ctx))
    · split
      · refine .bind_lookahead fun l hl => ?_
        exact .bind_read _ (fun _ => rfl) fun c _ => .bind_require (hoperand start)
      · exact hoperand start

/-- No operator can be read behind it. -/
theorem operatorsTerm_stops (hr : r.Stuck) :
    Leaves (operatorsTerm r ctx) [.word name false, .invalid] (some [.invalid]) := by
  have hbinary : Leaves (binaryTerm r ctx 0) [.word name false, .invalid] (some [.invalid]) := by
    rw [binaryTerm]
    refine .bind_at (.bind_token (.bind (unaryTerm_stops hr) fun t => ?_))
    rw [binaryRest]
    exact .repeatFrom_nothing (Takes.bind_token rfl (Takes.pure rfl))
  rw [operatorsTerm]
  refine .bind_start fun start => .bind hbinary fun t => ?_
  rw [assignmentRest]
  refine .bind_token ?_
  show Leaves (conditionalRest r ctx t) _ _
  rw [conditionalRest]
  exact .bind_eat rfl (.pure t)

theorem asyncTerm_stops (hr : r.Stuck) :
    Leaves (asyncTerm r ctx) [.word name false, .invalid] (some [.invalid]) := by
  rw [asyncTerm]
  refine .bind_start fun start => .bind_ahead fun l more hl hmore => ?_
  obtain ⟨b, rfl⟩ := List.length_eq_one_iff.mp hmore
  dsimp only
  rw [hl]
  split
  · exact operatorsTerm_stops hr
  · exact operatorsTerm_stops hr

theorem yieldTerm_stops (hr : r.Stuck) :
    Leaves (yieldTerm r ctx) [.word name false, .invalid] (some [.invalid]) := by
  rw [yieldTerm]
  refine .bind_start fun start => .bind_require (.bind_advance (.bind_newline fun newline => ?_))
  split
  · exact .pure _
  · exact .bind_eat rfl (.bind_token (.bind_none (hr.assignment ctx)))

/-- So an expression ends behind the word. -/
theorem assignmentTerm_stops (hr : r.Stuck) :
    Leaves (assignmentTerm r ctx) [.word name false, .invalid] (some [.invalid]) := by
  rw [assignmentTerm]
  refine .bind_token (.bind_lookahead fun l _ => ?_)
  split
  · exact yieldTerm_stops hr
  · split
    · exact asyncTerm_stops hr
    · exact operatorsTerm_stops hr

/-! ### Behind a parenthesis -/

/-- A parenthesis before it is not closed. -/
theorem assignmentTerm_group (hr : r.Stuck) :
    Leaves (assignmentTerm r ctx) [.punct .leftParen, .word name false, .invalid] none := by
  have henclosed : Leaves (enclosed r ctx) [.punct .leftParen, .word name false, .invalid] none := by
    have hargument : Leaves (argument r ctx) [.word name false, .invalid] (some [.invalid]) := by
      rw [argument]
      exact .bind_eat rfl (.bind (hr.word _ name) fun t => .pure _)
    have hparen : Leaves (expect .leftParen) [.punct .leftParen, .word name false, .invalid]
        (some [.word name false, .invalid]) := by
      rw [expect, eat, bind_assoc]
      exact .bind_at (.bind_advance (.pure _))
    rw [enclosed]
    exact .bind hparen fun _ => .delimited rfl hargument rfl rfl
  rw [assignmentTerm]
  refine .bind_token ?_
  dsimp only
  rw [parenTerm]
  exact .bind_start fun start => .bind_get fun c => .bind_none henclosed

end Stuck

/-! ## Scripts -/

/-- All rules are stuck where no token stands. -/
theorem Rules.stuck_ofDepth (n : Nat) : (Rules.ofDepth n).Stuck := by
  induction n with
  | zero => exact ⟨fun _ => .fails, fun _ => .fails, fun _ => .fails, fun _ _ => .fails⟩
  | succ n ih =>
    exact
      { assignment := fun _ => assignmentTerm_stuck
        unary := fun _ => unaryTerm_stuck
        subject := fun _ => subjectTerm_stuck
        word := fun _ _ => assignmentTerm_stops ih }

/-- So there is no statement. -/
theorem statement_refuses (n : Nat) (name : String) :
    Leaves ((Rules.ofDepth n).statement .top false)
      [.punct .leftParen, .word name false, .invalid] none := by
  have hassignment (n : Nat) : Leaves ((Rules.ofDepth n).assignment .top)
      [.punct .leftParen, .word name false, .invalid] none := by
    cases n with
    | zero => exact .fails
    | succ n => exact assignmentTerm_group (Rules.stuck_ofDepth n)
  cases n with
  | zero => exact .fails
  | succ n =>
    show Leaves (statementTerm (.ofDepth n) .top false) _ _
    rw [statementTerm]
    refine .bind_token ?_
    dsimp only
    rw [labelOrExpression, expression]
    exact .bind_none (.bind_none (hassignment n))

/-- A text that goes on with what is no token, after a parenthesis and a word, is no script. -/
theorem statements?_eq_none {text : List Char} {name : String}
    (h : Spells text [.punct .leftParen, .word name false, .invalid] []) :
    statements? text = none := by
  cases h with
  | cons hnext hshort hrest =>
    obtain ⟨start, stop, newline, hn, -⟩ := hnext 0
    have hscript : Leaves (script (.ofDepth (2 * text.length + 8)))
        [.punct .leftParen, .word name false, .invalid] none := by
      rw [script]
      exact .repeatFrom_none (.bind_token (.bind_none (statement_refuses _ name)))
    have hat : (⟨⟨.punct .leftParen, start, stop, newline⟩, _, 0, []⟩ : Cursor).At
        [.punct .leftParen, .word name false, .invalid] [] := ⟨_, _, rfl, rfl, nofun, hrest⟩
    rw [statements?, hn]
    dsimp only
    rw [StateT.run, hscript.eq_none hat]
    rfl

end UiTemplate.Script
