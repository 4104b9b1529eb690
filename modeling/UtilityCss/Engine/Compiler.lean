import UtilityCss.ClassName.Parser
import UtilityCss.Config.Json
import UtilityCss.Rule.Registry
import UtilityCss.Sheet.Basic

/-!
# The compiler

A compiler owns the rules, the theme and the caches. Three caches stand before the pure functions: class
names taken apart, tokens classified as utilities, and style trees that are not empty. Each cached
function returns its result together with the caches after it. Remembered results hold for one set of
rules and one theme: every change of either counts a new version and clears the caches.
-/

namespace UtilityCss

/-! ## Remembered results -/

structure Caches where
  /-- Class names taken apart, by the class name. -/
  parse : Cache ClassName
  /-- Style trees, by the class name. -/
  ast : Cache (List Node)
  /-- Whether a token is a utility, by the token. -/
  utility : Cache Bool

namespace Caches

/-- Empty caches with the capacities and the policy of a configuration. -/
def ofConfig (c : Config) : Caches :=
  ⟨.new c.parseCacheSize c.eviction, .new c.astCacheSize c.eviction,
    .new c.utilityCacheSize c.eviction⟩

def clear (c : Caches) : Caches := ⟨c.parse.clear, c.ast.clear, c.utility.clear⟩

end Caches

namespace Registry

/-- Whether a token is a utility, remembered. -/
def classifyCached (reg : Registry) (θ : Theme) (caches : Caches) (token : String) :
    Bool × Caches :=
  match caches.utility.get token with
  | (some hit, utility) => (hit, { caches with utility := utility })
  | (none, utility) =>
    let answer := reg.isUtilityToken θ token
    (answer, { caches with utility := utility.insert token answer })

/-- Whether the first of some tokens is the utility: asked only if there are several. -/
def directionCached (reg : Registry) (θ : Theme) (caches : Caches) (tokens : List String) :
    Bool × Caches :=
  match ClassName.leader? tokens with
  | some first => reg.classifyCached θ caches first
  | none => (false, caches)

/-- A class name taken apart, remembered. -/
def parseCached (reg : Registry) (θ : Theme) (caches : Caches) (raw : String) :
    ClassName × Caches :=
  match caches.parse.get raw with
  | (some hit, parse) => (hit, { caches with parse := parse })
  | (none, parse) =>
    let tokens := ClassName.tokens raw
    let (utilityFirst, caches) := reg.directionCached θ { caches with parse := parse } tokens
    let c := ClassName.assemble reg (ClassName.isImportant raw) utilityFirst tokens
    (c, { caches with parse := caches.parse.insert raw c })

/-- The style tree of a class name with its source, without any cache. -/
def compile (reg : Registry) (θ : Theme) (cls : String) : Except CompileError (List Node) :=
  (reg.expand θ (ClassName.parse reg θ cls)).map (Node.withSourceAll cls)

/-- The style tree of a class name with its source, remembered unless it is empty. -/
def compileCached (reg : Registry) (θ : Theme) (caches : Caches) (cls : String) :
    Except CompileError (List Node) × Caches :=
  match caches.ast.get cls with
  | (some hit, ast) => (.ok hit, { caches with ast := ast })
  | (none, ast) =>
    let (c, caches) := reg.parseCached θ { caches with ast := ast } cls
    match reg.expand θ c with
    | .error e => (.error e, caches)
    | .ok [] => (.ok [], caches)
    | .ok (n :: ns) =>
      let nodes := Node.withSourceAll cls (n :: ns)
      (.ok nodes, { caches with ast := caches.ast.insert cls nodes })

end Registry

/-! ## Compilers -/

structure Compiler where
  registry : Registry
  theme : Theme
  caches : Caches
  config : Config
  /-- The number of changes of the rules and the theme. -/
  version : Nat
  /-- The installed plugins, in order. -/
  plugins : List PluginRecord

namespace Compiler

/-- A compiler without rules. -/
def new (config : Config) : Compiler :=
  ⟨.empty, .null, .ofConfig config, config, 0, []⟩

/-- Count a change, and forget what was remembered. -/
def invalidate (c : Compiler) : Compiler :=
  { c with version := c.version + 1, caches := c.caches.clear }

def setTheme (c : Compiler) (θ : Theme) : Compiler := { c with theme := θ }.invalidate

def addUtility (c : Compiler) (rule : UtilityRule) : Compiler :=
  { c with registry := c.registry.addUtility rule }.invalidate

def addModifier (c : Compiler) (rule : ModifierRule) : Compiler :=
  { c with registry := c.registry.addModifier rule }.invalidate

/-- Install a plugin, which counts as one change. -/
def usePlugin (c : Compiler) (p : Plugin) : Compiler :=
  let c := { c with registry := p.register c.registry }.invalidate
  { c with plugins := c.plugins ++ [p.record c.version] }

/-- Take a class name apart. -/
def parse (c : Compiler) (raw : String) : ClassName × Compiler :=
  let (parsed, caches) := c.registry.parseCached c.theme c.caches raw
  (parsed, { c with caches := caches })

/-- The style tree of a class name. -/
def generate (c : Compiler) (cls : String) : Except CompileError (List Node) × Compiler :=
  let (result, caches) := c.registry.compileCached c.theme c.caches cls
  (result, { c with caches := caches })

/-- The layout of the output. -/
def layout (c : Compiler) : Layout := if c.config.minify then .minified else .pretty

/-- The style sheet of a class from its tree. -/
def serialize (c : Compiler) (nodes : List Node) (cls : String) : Sheet :=
  Sheet.ofNodes c.layout cls nodes

/-- Forget what was remembered. -/
def clearCaches (c : Compiler) : Compiler := { c with caches := c.caches.clear }

end Compiler
end UtilityCss
