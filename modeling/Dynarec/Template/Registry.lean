import Dynarec.Template.Basic

/-! Tables of templates for a host, and edits of such a table. -/
namespace Dynarec

structure Registry where
  /-- The host's name in the trace. -/
  hostName : String
  lookup : TemplateKey → Option Template

namespace Registry

/-- The template of a key; a gap is an error. -/
def get (r : Registry) (key : TemplateKey) : Except Fault Template :=
  match r.lookup key with
  | some t => .ok t
  | none => .error (.error (.missingTemplate key))

/-- The first required key without a template, if there is one. -/
def gap? (r : Registry) : Option TemplateKey :=
  TemplateKey.required.find? fun key => (r.lookup key).isNone

/-- Checks that every key that the engine can ask for has a template. -/
def validate (r : Registry) : Except Fault Unit :=
  match r.gap? with
  | some key => .error (.error (.missingTemplate key))
  | none => .ok ()

/-- The table without the templates of some keys. -/
def without (r : Registry) (drop : TemplateKey → Bool) : Registry :=
  { r with lookup := fun key => if drop key then none else r.lookup key }

/-- The table with other templates for some keys. -/
def override (r : Registry) (other : TemplateKey → Option Template) : Registry :=
  { r with lookup := fun key => (other key).orElse fun _ => r.lookup key }

/-- An edited table: some keys answer another template, and some keys, which win, answer none. -/
def edit (r : Registry) (drop : TemplateKey → Bool) (other : TemplateKey → Option Template) :
    Registry :=
  { (r.override other).without drop with hostName := r.hostName ++ "-edited" }

end Registry
end Dynarec
