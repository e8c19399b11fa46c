import Takibi.Search.PostOrder

/-! The order in which the files of a program are parsed: `use` declarations are resolved by a depth-first walk
that parses a file after the files it uses. -/

namespace Takibi.Use
open Relation Search List

abbrev Path := String

/-- Reserved provenance of compiler-generated region authority definitions. -/
def builtinRegionFile : String := "<builtin region>"
def sourceFileOfLoc (fname : String) : List Char := fname.toList.takeWhile (· ≠ '#')

/-- The functions `resolve` is given. Both may raise; `τ` is the type of the items of a file. -/
structure Host (ε τ : Type) where
  prescan : Path → Except ε (List Path)
  parseFile : Path → Except ε (List τ)
  isUse : τ → Bool

inductive ResolveError (ε : Type)
  | typeError (file : Path) (message : String)
  | useError (message : String)
  | raised (e : ε)
  deriving DecidableEq, Repr

variable {ε τ : Type}

def usesLead (isUse : τ → Bool) : Bool → List τ → Bool
  | _, [] => true
  | seenOther, item :: rest =>
    if isUse item then !seenOther && usesLead isUse seenOther rest else usesLead isUse true rest

def checkUsesAreLeading (isUse : τ → Bool) (filename : Path) (items : List τ) : Except (ResolveError ε) Unit :=
  if usesLead isUse false items then .ok ()
  else .error (.useError (filename ++ ": `use` declarations must appear before any other item in the file"))

def raise {α : Type} : Except ε α → Except (ResolveError ε) α := Except.mapError .raised

def refuseReserved (path : Path) : Except (ResolveError ε) Unit :=
  if sourceFileOfLoc path = builtinRegionFile.toList then
    .error (.typeError path "source file name is reserved for compiler-generated region authorities")
  else .ok ()

def parseChecked (host : Host ε τ) (path : Path) : Except (ResolveError ε) (List τ) := do
  let items ← raise (host.parseFile path)
  checkUsesAreLeading host.isUse path items
  pure items

def walk (host : Host ε τ) : PostOrder.Hooks (ResolveError ε) Path (List τ) where
  arrive := refuseReserved
  next path := raise (host.prescan path)
  work := parseChecked host

structure Resolution (ε τ : Type) where
  answer : Except (ResolveError ε) (List (Path × List τ))
  parsed : List Path

def Resolution.ofOutcome : PostOrder.Outcome (ResolveError ε) Path (List τ) → Resolution ε τ
  | .ok w => ⟨.ok w.order.reverse, w.worked.reverse⟩
  | .error (e, w) => ⟨.error e, w.worked.reverse⟩

def resolve (host : Host ε τ) (fuel : ℕ) (entryPaths : List Path) : Option (Resolution ε τ) :=
  (PostOrder.each (PostOrder.visit (walk host) fuel) entryPaths {}).map .ofOutcome

/-! ## What is parsed, and when -/

def Uses (host : Host ε τ) (u v : Path) : Prop := ∃ l, host.prescan u = .ok l ∧ v ∈ l

def Reachable (host : Host ε τ) (entryPaths : List Path) (v : Path) : Prop :=
  ∃ u ∈ entryPaths, ReflTransGen (Uses host) u v

/-- The path is reserved, the file cannot be read or parsed, or it has a use behind another item. -/
def Refuses (host : Host ε τ) (path : Path) : Prop :=
  ∃ e : ResolveError ε, refuseReserved path = .error e ∨ raise (host.prescan path) = .error e ∨
    parseChecked host path = .error e

def Before (l : List Path) (v u : Path) : Prop := ∀ earlier later, l = earlier ++ u :: later → v ∈ earlier

section
variable {host : Host ε τ}

lemma edge_walk : PostOrder.Edge (walk host) = Uses host := by
  funext u v
  simp only [PostOrder.Edge, walk, Uses, raise]
  cases host.prescan u with
  | error e | ok l => simp [Except.mapError]

lemma parseFile_of_parseChecked {path : Path} {items : List τ} (h : parseChecked host path = .ok items) :
    host.parseFile path = .ok items := by
  unfold parseChecked raise at h
  cases hparse : host.parseFile path with
  | error e =>
    rw [hparse] at h
    cases h
  | ok parsed =>
    rw [hparse] at h
    cases hcheck : checkUsesAreLeading (ε := ε) host.isUse path parsed with
    | error e => simp [Except.mapError, hcheck, bind, Except.bind] at h
    | ok _ =>
      simp only [Except.mapError, hcheck, bind, Except.bind, pure, Except.pure, Except.ok.injEq] at h
      rw [h]

lemma before_of_ordered {l : List Path} (h : PostOrder.Ordered (walk host) l) {u v : Path} (huse : Uses host u v)
    (hback : ¬ ReflTransGen (Uses host) v u) : Before l.reverse v u := by
  intro earlier later hsplit
  have hl : l = later.reverse ++ u :: earlier.reverse := by
    rw [← reverse_reverse l, hsplit]
    simp
  rw [hl] at h
  rw [← edge_walk] at huse hback
  exact mem_reverse.mp (h.of_append huse hback)

lemma before_of_acyclic {l : List Path} (h : PostOrder.Ordered (walk host) l) {u v : Path}
    (acyclic : ∀ p, ¬ TransGen (Uses host) p p) (hpath : TransGen (Uses host) u v) : Before l.reverse v u := by
  intro earlier later hsplit
  have hl : l = later.reverse ++ u :: earlier.reverse := by
    rw [← reverse_reverse l, hsplit]
    simp
  rw [hl] at h
  rw [← edge_walk] at acyclic hpath
  exact mem_reverse.mp (h.of_acyclic acyclic hpath)

end

/-- The files of the program are parsed by dependency, as far as cycles allow. -/
theorem resolve_orders (host : Host ε τ) (entryPaths : List Path) (files : Finset Path)
    (hentries : ∀ p ∈ entryPaths, p ∈ files) (hfiles : ∀ u ∈ files, ∀ v, Uses host u v → v ∈ files) :
    ∃ r, (∀ fuel, files.card < fuel → resolve host fuel entryPaths = some r) ∧
      r.parsed.Nodup ∧ (∀ p ∈ r.parsed, Reachable host entryPaths p) ∧
      (∀ u v, Uses host u v → ¬ ReflTransGen (Uses host) v u → Before r.parsed v u) ∧
      ((∀ p, ¬ TransGen (Uses host) p p) → ∀ u v, TransGen (Uses host) u v → Before r.parsed v u) ∧
      match r.answer with
      | .ok listed => listed.map Prod.fst = r.parsed ∧ (∀ p ∈ listed, host.parseFile p.1 = .ok p.2) ∧
          ∀ p, Reachable host entryPaths p → p ∈ r.parsed ∧ ¬ Refuses host p
      | .error _ => ∃ p, Reachable host entryPaths p ∧ Refuses host p := by
  have hreach : ∀ p, (∃ u ∈ entryPaths, PostOrder.Reach (walk host) u p) ↔ Reachable host entryPaths p := by
    intro p
    rw [Reachable, ← edge_walk]
  obtain ⟨o, hruns, hsound⟩ := PostOrder.walk_settles files hentries
    (fun u hu v hv => hfiles u hu v (edge_walk ▸ hv))
  refine ⟨.ofOutcome o, fun fuel hfuel => by rw [resolve, hruns fuel hfuel, Option.map_some], ?_⟩
  rcases o with ⟨e, w⟩ | w
  · obtain ⟨u, hu, p, hup, hrefused⟩ := hsound.refused
    refine ⟨nodup_reverse.mpr hsound.nodup, fun p hp => ?_, fun u v => before_of_ordered hsound.ordered,
      fun acyclic u v => before_of_acyclic hsound.ordered acyclic, p, (hreach p).mp ⟨u, hu, hup⟩, e, hrefused⟩
    exact (hreach p).mp ((hsound.reached p (mem_reverse.mp hp)).resolve_left not_mem_nil)
  · have hext : PostOrder.Extends (walk host) entryPaths {} w := hsound
    have hmem : ∀ p, p ∈ w.worked.reverse ↔ Reachable host entryPaths p := by
      intro p
      rw [mem_reverse, hext.ok.worked, hext.mem_iff, hreach]
    refine ⟨nodup_reverse.mpr (hext.ok.worked ▸ hext.ok.nodup), fun p hp => (hmem p).mp hp, ?_, ?_, ?_, ?_, ?_⟩
    · exact fun u v => before_of_ordered (hext.ok.worked ▸ hext.ok.ordered)
    · exact fun acyclic u v => before_of_acyclic (hext.ok.worked ▸ hext.ok.ordered) acyclic
    · show w.order.reverse.map Prod.fst = w.worked.reverse
      rw [map_reverse, hext.ok.names, hext.ok.worked]
    · exact fun p hp => parseFile_of_parseChecked (hext.ok.results p (mem_reverse.mp hp))
    · refine fun p hp => ⟨(hmem p).mpr hp, ?_⟩
      rintro ⟨e, he⟩
      exact hext.ok.accepted p (hext.mem_iff.mpr ((hreach p).mpr hp)) e he

def kernelFiles : Host Unit Bool where
  prescan p := .ok (if p = "main.tkb" then ["irq.tkb", "lock.tkb"] else
    if p = "irq.tkb" then ["lock.tkb", "main.tkb", "irq.tkb"] else [])
  parseFile _ := .ok []
  isUse := id

theorem resolve_orders_kernelFiles :
    ∃ r, resolve kernelFiles 4 ["main.tkb"] = some r ∧ r.parsed.Nodup ∧
      ¬ ReflTransGen (Uses kernelFiles) "lock.tkb" "main.tkb" ∧ Before r.parsed "lock.tkb" "main.tkb" := by
  have hleaf : ¬ ReflTransGen (Uses kernelFiles) "lock.tkb" "main.tkb" := by
    intro hpath
    obtain heq | ⟨v, ⟨l, hl, hv⟩, -⟩ := hpath.cases_head
    · exact absurd heq (by decide)
    · cases hl
      exact absurd hv not_mem_nil
  have hfiles : ∀ u ∈ ({"main.tkb", "irq.tkb", "lock.tkb"} : Finset Path), ∀ v, Uses kernelFiles u v →
      v ∈ ({"main.tkb", "irq.tkb", "lock.tkb"} : Finset Path) := by
    rintro u hu v ⟨l, hl, hv⟩
    cases hl
    revert v
    revert u
    decide
  obtain ⟨r, hr, hnodup, -, hbefore, -⟩ := resolve_orders kernelFiles ["main.tkb"]
    {"main.tkb", "irq.tkb", "lock.tkb"} (by decide) hfiles
  exact ⟨r, hr 4 (by decide), hnodup, hleaf, hbefore "main.tkb" "lock.tkb" ⟨_, rfl, by decide⟩ hleaf⟩

end Takibi.Use
