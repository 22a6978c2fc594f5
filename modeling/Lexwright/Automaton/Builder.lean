import Lexwright.Automaton.Basic
import Lexwright.Options
import Lexwright.Pattern.Resolve
import Std.Data.HashSet

/-!
# `Lexwright.Automaton.Builder`: the automaton of a lexicon

First the rules of a lexical state are resolved: `ResolvedRule` holds what a rule contributes and
what is wrong with it. Then the fragments of the resolved rules are laid out behind the start
state. A hidden rule is resolved, for what is wrong with it, and contributes nothing.

* `resolveRules`: the resolved rules of a lexical state.
* `Block`: the states of a lexical state, as lists of moves, jumps and accepted rules.
* `Builder`: the states laid out so far, with the log.
* `Automaton.ofLexicon`: the automaton of all the lexical states.
-/

set_option autoImplicit false

namespace Lexwright

/-- What the rules of a lexicon refer to: the labels, the numbers of the lexical states, and the
largest bound of a repetition. -/
structure Environment where
  labels : Labels
  stateIds : Std.HashMap String Nat
  limit : Nat

/-- A rule without its references. -/
structure ResolvedRule where
  rule : Rule
  name : String
  pos : Option Pos
  nextState : Option Nat
  /-- What the rule matches; a hidden rule and a rule for the end of the input have nothing. -/
  pattern : Option Pattern
  /-- What is wrong with the rule itself. -/
  issues : List Issue
  /-- What is wrong with its expression. -/
  findings : List Finding

namespace ResolvedRule

/-- Whether the rule stands for the end of the input. -/
def isEof (r : ResolvedRule) : Bool := r.rule.regex.isEof

/-- What the exit of the rule's fragment accepts. -/
def accept (r : ResolvedRule) (id : Nat) : Accept := ⟨id, r.rule.ordinal, r.rule.kind⟩

end ResolvedRule

/-- What is wrong with the order of a rule. -/
def ordinalIssues (rule : Rule) (name : String) (previous : Option Nat) : List Issue :=
  match previous with
  | some p => if rule.ordinal ≤ p then [.ordinalOrder name rule.ordinal p] else []
  | none => []

/-- The lexical state that a rule enters, and what is wrong with its name. -/
def resolveNext (env : Environment) (rule : Rule) (name : String) : Option Nat × List Issue :=
  match rule.nextState with
  | none => (none, [])
  | some next =>
    match env.stateIds[next]? with
    | some id => (some id, [])
    | none => (none, [.unknownState name next])

/-- Resolves a rule. `previous` is the ordinal of the rule before it, and `eofSeen` says whether a
rule before it stands for the end of the input. -/
def resolveRule (env : Environment) (state : LexState) (site : Site) (previous : Option Nat)
    (eofSeen : Bool) (rule : Rule) : ResolvedRule :=
  let name := rule.name
  let (nextState, nextIssues) := resolveNext env rule name
  let issues := ordinalIssues rule name previous ++ nextIssues
  let pos := rule.regex.tag.pos.or state.pos
  if rule.regex.isEof then
    let several := if eofSeen then [Issue.severalEofRules state.name] else []
    { rule, name, pos, nextState, pattern := none, issues := issues ++ several, findings := [] }
  else
    let (pattern, findings) :=
      rule.regex.resolve ⟨env.labels, env.limit, rule.ignoreCase⟩ [] site
    -- a hidden rule exists to be referenced: only its findings count
    if rule.regex.tag.hidden then
      { rule, name, pos, nextState, pattern := none, issues, findings }
    else
      let reserved :=
        if rule.kind = eofKind ∧ rule.category.channel?.isSome then [Issue.reservedKind name]
        else []
      { rule, name, pos, nextState, pattern := some pattern, issues := issues ++ reserved,
        findings }

/-- Resolves the rules of a lexical state from the `i`-th on. -/
def resolveRules (env : Environment) (state : LexState) (index : Nat) (i : Nat)
    (previous : Option Nat) (eofSeen : Bool) : List Rule → List ResolvedRule
  | [] => []
  | rule :: rest =>
    resolveRule env state ⟨index, i, []⟩ previous eofSeen rule ::
      resolveRules env state index (i + 1) (some rule.ordinal) (eofSeen || rule.regex.isEof) rest

/-- States that follow each other, with their moves, jumps and accepted rules. -/
structure Block where
  size : Nat
  moves : List Move
  jumps : List Jump
  accepts : List (Nat × Accept)
  /-- Entry and exit of the fragment of each rule that has one. -/
  fragments : List (Option (Nat × Nat))

namespace Block

/-- The fragments of the rules from rule number `id` on, behind the states before `base`. The
start state jumps to each of them. -/
def ofRules (start : Nat) (id base : Nat) : List ResolvedRule → Block
  | [] => ⟨0, [], [], [], []⟩
  | r :: rest =>
    match r.pattern with
    | none =>
      let later := ofRules start (id + 1) base rest
      { later with fragments := none :: later.fragments }
    | some p =>
      let f := p.fragment base
      let later := ofRules start (id + 1) (base + f.size) rest
      { size := f.size + later.size
        moves := f.moves ++ later.moves
        jumps := f.jumps ++ ⟨start, f.entry⟩ :: later.jumps
        accepts := (f.exit, r.accept id) :: later.accepts
        fragments := some (f.entry, f.exit) :: later.fragments }

/-- The block of a lexical state whose start state is number `start`. -/
def ofLexState (start firstRule : Nat) (rules : List ResolvedRule) : Block :=
  let b := ofRules start firstRule (start + 1) rules
  { b with size := b.size + 1 }

/-- The states of the block, of which the first is number `start`. -/
def states (b : Block) (lexState start : Nat) : Array State :=
  let blank : Array State := Array.replicate b.size { lexState }
  let moved := b.moves.foldl
    (fun s m => s.modify (m.source - start) fun q => { q with move := some (m.set, m.target) })
    blank
  let jumped := b.jumps.foldl
    (fun s j => s.modify (j.source - start) fun q => { q with jumps := q.jumps.push j.target })
    moved
  b.accepts.foldl
    (fun s a => s.modify (a.1 - start) fun q => { q with accept := some a.2 })
    jumped

end Block

/-- The states laid out so far. -/
structure Builder where
  env : Environment
  automaton : Automaton := {}
  log : Log
  /-- The issues of nodes that were reported; a node that is copied reports an issue once. -/
  reported : Std.HashSet (Site × Issue) := ∅

namespace Builder

/-- Starts with what is wrong with the labels and the names of the lexical states. -/
def ofLexicon (lexicon : Lexicon) (options : Options) : Builder :=
  let (labels, labelIssues) := lexicon.labels
  let (stateIds, nameIssues) := lexicon.stateNames
  let issues := labelIssues ++ nameIssues
  { env := { labels, stateIds, limit := options.maxRepetition }
    log := ({} : Log).pushAll (issues.map fun i => i.2.message i.1) }

/-- Reports an issue of a node, unless it was reported. -/
def reportFinding (found : Log × Std.HashSet (Site × Issue)) (f : Finding) :
    Log × Std.HashSet (Site × Issue) :=
  if found.2.contains (f.site, f.issue) then found
  else (found.1.push (f.issue.message f.pos), found.2.insert (f.site, f.issue))

/-- Reports what is wrong with a rule, then what is wrong with its expression. -/
def reportRule (found : Log × Std.HashSet (Site × Issue)) (r : ResolvedRule) :
    Log × Std.HashSet (Site × Issue) :=
  r.findings.foldl reportFinding (found.1.pushAll (r.issues.map (·.message r.pos)), found.2)

/-- Lays out the lexical state that has the given index in the lexicon, and gives its number. -/
def addState (b : Builder) (index : Nat) (state : LexState) : Builder × Nat :=
  let lexState := b.automaton.lexStates.size
  let start := b.automaton.states.size
  let firstRule := b.automaton.rules.size
  let rules := resolveRules b.env state index 0 none false state.rules
  let block := Block.ofLexState start firstRule rules
  let infos := List.zipWith
    (fun r fragment =>
      { lexState, ordinal := r.rule.ordinal, kind := r.rule.kind, category := r.rule.category,
        nextState := r.nextState, name := r.name, pos := r.pos, fragment, isEof := r.isEof :
        RuleInfo })
    rules block.fragments
  let info : LexStateInfo :=
    { name := state.name, start
      eofRule := (rules.findIdx? ResolvedRule.isEof).map (firstRule + ·)
      firstRule, endRule := firstRule + rules.length }
  let (log, reported) := rules.foldl reportRule (b.log, b.reported)
  ({ b with
      automaton :=
        { states := b.automaton.states ++ block.states lexState start
          lexStates := b.automaton.lexStates.push info
          rules := b.automaton.rules ++ infos.toArray }
      log, reported },
    lexState)

/-- Lays out lexical states, each given with its index. -/
def addStates (b : Builder) (states : List (LexState × Nat)) : Builder :=
  states.foldl (fun b s => (b.addState s.2 s.1).1) b

end Builder

/-- The largest number of lexical states. -/
def maxLexStates : Nat := 65535

/-- The automaton of a lexicon with the log of both. A lexicon with errors has an automaton too,
in which what is wrong stands for the empty text. -/
def Automaton.ofLexicon (lexicon : Lexicon) (options : Options) : Automaton × Log :=
  let count := lexicon.states.length
  if count = 0 then ({}, lexicon.log.push (Issue.noStates.message none))
  else if maxLexStates < count then
    ({}, lexicon.log.push ((Issue.tooManyStates count).message none))
  else
    let b := (Builder.ofLexicon lexicon options).addStates lexicon.states.zipIdx
    let a := b.automaton
    let note := s!"NFA: {a.states.size} states, {a.rules.size} rules, " ++
      s!"{a.lexStates.size} lexical state(s)"
    (a, (lexicon.log.append b.log).push (.note note))

end Lexwright
