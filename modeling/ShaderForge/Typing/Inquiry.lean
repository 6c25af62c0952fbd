import ShaderForge.Fault

/-!
# Inquiries

A computation that may ask for the types of other atoms.  Typing rules are
inquiries, so one set of rules serves every way of answering the questions.
-/

namespace ShaderForge

/-- A computation that may ask for types and may fail. -/
inductive Inquiry (α : Type) where
  | done (a : α)
  | fail (e : Fault)
  | ask (i : Index) (resume : Ty → Inquiry α)

namespace Inquiry

variable {α β : Type}

protected def bind : Inquiry α → (α → Inquiry β) → Inquiry β
  | done a, f => f a
  | fail e, _ => fail e
  | ask i resume, f => ask i fun ty => (resume ty).bind f

instance : Monad Inquiry where
  pure := done
  bind := Inquiry.bind

def typeOf (i : Index) : Inquiry Ty := ask i done

def ofExcept : Except Fault α → Inquiry α
  | .ok a => done a
  | .error e => fail e

def typesOf : List Index → Inquiry (List Ty)
  | [] => done []
  | i :: rest => do
    let ty ← typeOf i
    let types ← typesOf rest
    return ty :: types

def answer {m : Type → Type} [Monad m] [MonadExceptOf Fault m] (oracle : Index → m Ty) :
    Inquiry α → m α
  | done a => pure a
  | fail e => throw e
  | ask i resume => do (resume (← oracle i)).answer oracle

end Inquiry

end ShaderForge
