/-! The base library, as source text. A session evaluates it before anything else; only the
primitives and the special forms are there while it loads. -/

namespace ArenaScheme.Bootstrap

def lines : List String := [
  ";; Base library, evaluated before the first prompt.",
  ";; Only the native builtins and the special forms are available while this",
  ";; file loads, and every `if` needs both branches.",
  "",
  "(define (list . items) items)",
  "(define (not x) (if x #f #t))",
  "",
  "(define (caar x) (car (car x)))",
  "(define (cadr x) (car (cdr x)))",
  "(define (cdar x) (cdr (car x)))",
  "(define (cddr x) (cdr (cdr x)))",
  "(define (caddr x) (car (cddr x)))",
  "(define (cdddr x) (cdr (cddr x)))",
  "",
  ";;; numbers",
  "",
  "(define (number? x) (if (integer? x) #t (float? x)))",
  "(define (> a b) (< b a))",
  "(define (<= a b) (not (< b a)))",
  "(define (>= a b) (not (< a b)))",
  "(define (zero? n) (= n 0))",
  "(define (abs n) (if (< n 0) (- 0 n) n))",
  "(define (inc n) (+ n 1))",
  "(define (dec n) (- n 1))",
  "",
  "(define (number->string n . base)",
  "  (sys:number->string n (if (null? base) 10 (car base))))",
  "(define (string->number text . base)",
  "  (sys:string->number text (if (null? base) 10 (car base))))",
  "",
  ";;; lists",
  "",
  "(define (length lst)",
  "  (define (count lst n)",
  "    (if (null? lst) n (count (cdr lst) (+ n 1))))",
  "  (count lst 0))",
  "",
  "(define (reverse lst)",
  "  (define (loop lst acc)",
  "    (if (null? lst) acc (loop (cdr lst) (cons (car lst) acc))))",
  "  (loop lst '()))",
  "",
  "(define (append a b)",
  "  (if (null? a) b (cons (car a) (append (cdr a) b))))",
  "",
  "(define (map f lst)",
  "  (if (null? lst) '() (cons (f (car lst)) (map f (cdr lst)))))",
  "",
  "(define (for-each f lst)",
  "  (if (null? lst)",
  "      '()",
  "      (begin (f (car lst)) (for-each f (cdr lst)))))",
  "",
  "(define (filter keep? lst)",
  "  (if (null? lst)",
  "      '()",
  "      (if (keep? (car lst))",
  "          (cons (car lst) (filter keep? (cdr lst)))",
  "          (filter keep? (cdr lst)))))",
  "",
  "(define (list-tail lst k)",
  "  (if (= k 0) lst (list-tail (cdr lst) (- k 1))))",
  "(define (list-ref lst k) (car (list-tail lst k)))",
  "",
  "(define (memq x lst)",
  "  (if (null? lst)",
  "      #f",
  "      (if (eq? x (car lst)) lst (memq x (cdr lst)))))",
  "",
  "(define (assq key alist)",
  "  (if (null? alist)",
  "      #f",
  "      (if (eq? key (caar alist)) (car alist) (assq key (cdr alist)))))",
  "",
  ";;; strings and vectors",
  "",
  "(define (string=? a b)",
  "  (define (same-from i)",
  "    (if (= i (string-length a))",
  "        #t",
  "        (if (= (char->integer (string-ref a i)) (char->integer (string-ref b i)))",
  "            (same-from (+ i 1))",
  "            #f)))",
  "  (if (= (string-length a) (string-length b)) (same-from 0) #f))",
  "",
  "(define (vector->list v)",
  "  (define (collect i acc)",
  "    (if (< i 0) acc (collect (- i 1) (cons (vector-ref v i) acc))))",
  "  (collect (- (vector-length v) 1) '()))",
  "",
  "(define (list->vector lst)",
  "  (define v (make-vector (length lst)))",
  "  (define (fill i lst)",
  "    (if (null? lst)",
  "        v",
  "        (begin (vector-set! v i (car lst)) (fill (+ i 1) (cdr lst)))))",
  "  (fill 0 lst))",
  "",
  "(define (vector . items) (list->vector items))",
  "",
  "(define (equal? a b)",
  "  (if (eq? a b)",
  "      #t",
  "      (if (pair? a)",
  "          (if (pair? b)",
  "              (if (equal? (car a) (car b)) (equal? (cdr a) (cdr b)) #f)",
  "              #f)",
  "          (if (number? a)",
  "              (if (number? b) (= a b) #f)",
  "              (if (string? a)",
  "                  (if (string? b) (string=? a b) #f)",
  "                  (if (char? a)",
  "                      (if (char? b) (= (char->integer a) (char->integer b)) #f)",
  "                      (if (vector? a)",
  "                          (if (vector? b) (equal? (vector->list a) (vector->list b)) #f)",
  "                          #f)))))))",
  "",
  "(define (newline) (display-string \"\\n\"))",
  "",
  ";;; syntax",
  "",
  "(define (qq-expand x)",
  "  (if (pair? x)",
  "      (if (eq? (car x) 'unquote)",
  "          (cadr x)",
  "          (list 'cons (qq-expand (car x)) (qq-expand (cdr x))))",
  "      (if (vector? x)",
  "          (list 'list->vector (qq-expand (vector->list x)))",
  "          (list 'quote x))))",
  "",
  "(defmacro quasiquote (template) (qq-expand template))",
  "",
  "(defmacro let (bindings . body)",
  "  (cons (cons 'lambda (cons (map car bindings) body))",
  "        (map cadr bindings)))",
  "",
  "(defmacro cond clauses",
  "  (if (null? clauses)",
  "      #f",
  "      (if (eq? (caar clauses) 'else)",
  "          (cons 'begin (cdar clauses))",
  "          (list 'if (caar clauses)",
  "                (cons 'begin (cdar clauses))",
  "                (cons 'cond (cdr clauses))))))",
  "",
  "(defmacro and args",
  "  (if (null? args)",
  "      #t",
  "      (if (null? (cdr args))",
  "          (car args)",
  "          (list 'if (car args) (cons 'and (cdr args)) #f))))",
  "",
  ";; the first value is bound once so it is evaluated only once",
  "(defmacro or args",
  "  (if (null? args)",
  "      #f",
  "      (if (null? (cdr args))",
  "          (car args)",
  "          (list (list 'lambda '(or-value or-rest) '(if or-value or-value (or-rest)))",
  "                (car args)",
  "                (list 'lambda '() (cons 'or (cdr args)))))))",
  "",
  "(defmacro when (test . body)",
  "  (list 'if test (cons 'begin body) #f))",
  "",
  "(defmacro unless (test . body)",
  "  (list 'if test #f (cons 'begin body)))"]

/-- The text of the base library; every line of it ends in a line break. -/
def source : String := String.join (lines.map (· ++ "\n"))

end ArenaScheme.Bootstrap
