import Funclet.Compiler

/-!
# Functions that can be read

* `Reached` : the states a reader can be in between two functions, whatever the operators were;
* `Produced f` : some text can be read such that `f` comes out;
* `Chunk`, `Session.takeAll` : a session that is given texts and functions;
* `Job`, `Session.performAll` : so it is, and the functions have been read elsewhere;
* `performAll_induction` : what holds of a new session and is kept by each function holds after all jobs.
-/

namespace Funclet

namespace Grammar

/-- The states of a reader of the text `source` between two functions. -/
inductive Reached (escapes : Bool) (source : String) : State → Prop
  | start : Reached escapes source (.ofScan (scan escapes source))
  | next {s : State} (h : Reached escapes source s) (ops : Operators) : Reached escapes source (s.nextFunction ops).2
  | handOver {s : State} (h : Reached escapes source s) : Reached escapes source { s with reports := [] }

/-- Some reader, with some operators in force, reads the function `f`. -/
def Produced (f : Function) : Prop :=
  ∃ escapes source s ops, Reached escapes source s ∧ (s.nextFunction ops).1 = .function f

theorem produced_of_readFor {escapes : Bool} {source : String} (n : Nat) : ∀ (ops : Operators) (s : State),
    Reached escapes source s → ∀ f ∈ (readFor n ops s).functions, Produced f := by
  induction n with
  | zero => exact fun _ _ _ f hf => (nomatch hf)
  | succ n ih =>
    intro ops s hs f hf
    have hnext := (hs.next ops).handOver
    simp only [readFor, Reading.after] at hf
    cases ha : (s.nextFunction ops).1 with
    | ended =>
      rw [ha] at hf
      cases hf
    | failed =>
      rw [ha] at hf
      exact ih _ _ hnext f hf
    | function g =>
      rw [ha] at hf
      rcases List.mem_cons.1 hf with rfl | hf
      · exact ⟨escapes, source, s, ops, hs, ha⟩
      · exact ih _ _ hnext f hf

theorem produced_of_readSource {escapes : Bool} {source : String} {f : Function}
    (hf : f ∈ (readSource escapes source).functions) : Produced f :=
  produced_of_readFor _ _ _ .start f hf

end Grammar

/-- What a session is given: a text, or a function that need not have been read. -/
inductive Chunk where
  | text (escapes : Bool) (source : String)
  | function (f : Function)

/-- A chunk in which the function has been read somewhere. -/
inductive Job where
  | text (escapes : Bool) (source : String)
  | function (f : Function) (read : Grammar.Produced f)

def Job.chunk : Job → Chunk
  | .text escapes source => .text escapes source
  | .function f _ => .function f

namespace Session

def take (s : Session) : Chunk → List Body × Session
  | .text escapes source => s.compileText escapes source
  | .function f => ((s.compileFunction f).1.toList, (s.compileFunction f).2)

def takeAll (s : Session) : List Chunk → List Body × Session
  | [] => ([], s)
  | c :: cs =>
    let (bodies, s) := s.take c
    let (more, s) := s.takeAll cs
    (bodies ++ more, s)

def performAll (s : Session) (jobs : List Job) : List Body × Session := s.takeAll (jobs.map Job.chunk)

section Induction

variable {I : Session → List Body → Prop}

theorem compileFor_induction {escapes : Bool} {source : String}
    (hrec : ∀ s bodies events, I s bodies → I (s.record events) bodies)
    (hfun : ∀ s bodies f, Grammar.Produced f → I s bodies →
      I (s.compileFunction f).2 (bodies ++ (s.compileFunction f).1.toList)) :
    ∀ n r s bodies, Grammar.Reached escapes source r → I s bodies →
      I (compileFor n r s).2 (bodies ++ (compileFor n r s).1) := by
  intro n
  induction n with
  | zero =>
    intro r s bodies _ hs
    simpa only [compileFor, List.append_nil] using hs
  | succ n ih =>
    intro r s bodies hr hs
    have hnext : Grammar.Reached escapes source { (r.nextFunction s.operators).2 with reports := [] } :=
      (hr.next s.operators).handOver
    have hrecord := hrec s bodies ((r.nextFunction s.operators).2.reports.map .report) hs
    simp only [compileFor, readFunction]
    cases ha : (r.nextFunction s.operators).1 with
    | ended => simpa only [List.append_nil] using hrecord
    | failed => exact ih _ _ bodies hnext hrecord
    | function f =>
      have hf := hfun _ bodies f ⟨escapes, source, r, s.operators, hr, ha⟩ hrecord
      simpa only [List.append_assoc] using ih _ _ _ hnext hf

/-- What holds of a session and is kept by every function that is compiled holds after all jobs. -/
theorem performAll_induction (hrec : ∀ s bodies events, I s bodies → I (s.record events) bodies)
    (hfun : ∀ s bodies f, Grammar.Produced f → I s bodies →
      I (s.compileFunction f).2 (bodies ++ (s.compileFunction f).1.toList)) :
    ∀ jobs s bodies, I s bodies → I (s.performAll jobs).2 (bodies ++ (s.performAll jobs).1) := by
  intro jobs
  induction jobs with
  | nil =>
    intro s bodies hs
    simpa only [performAll, List.map_nil, takeAll, List.append_nil] using hs
  | cons j js ih =>
    intro s bodies hs
    have hj : I (s.take j.chunk).2 (bodies ++ (s.take j.chunk).1) := by
      cases j with
      | text escapes source => exact compileFor_induction hrec hfun _ _ s bodies .start hs
      | function f read => exact hfun s bodies f read hs
    simpa only [performAll, List.map_cons, takeAll, List.append_assoc] using ih _ _ hj

end Induction

end Session

end Funclet
