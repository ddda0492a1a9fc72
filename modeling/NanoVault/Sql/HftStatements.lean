/-
The statements on HFT tables as tokens (`parse` in `SQL_PARSER.hpp` and what it calls for them).

A parser takes its tokens from the front. A statement has the values its handler is given; a
number that `from_chars` refuses leaves the variable it was to be read into as it is, and that is
never set (`none`).
-/
import NanoVault.Catalog.Metadata
import NanoVault.Hft.Slot
import NanoVault.Sql.Lexer

namespace NanoVault.Sql

open NanoVault.Table NanoVault.Catalog NanoVault.Hft

abbrev TokenParser := StateT (List Token) (Except Fault)

/-- `match`. -/
def accept (expected : TokenType) : TokenParser Bool := do
  match ← get with
  | [] => return false
  | token :: tokens =>
      if token.type = expected then
        set tokens
        return true
      else return false

/-- `expect`; the token it returns. -/
def expect (expected : TokenType) (message : String) : TokenParser Token := do
  match ← get with
  | [] => throw (.runtimeError ("Parse error: ".toList ++ message.toList))
  | token :: tokens =>
      if token.type = expected then
        set tokens
        return token
      else throw (.runtimeError ("Parse error: ".toList ++ message.toList))

/-- `match(..) && match(..)`; what has been matched is not given back. -/
def acceptAll : List TokenType → TokenParser Bool
  | [] => return true
  | expected :: rest => do if ← accept expected then acceptAll rest else return false

/-! ### Statements -/

inductive HftStatement where
  | createHft (name : Text) (columns : List ColumnDefinition) (symbol : Int) (top : Bool)
  | addIndicator (indicator : Text) (paramas : List Text) (symbol columnNo ticks : Option Int64)
  | enableStrategy (strategy : Text) (paramas : List Text) (symbol ticks : Option Int64)
  | fetchIndicator (symbol : Option Int64)
  | binanceApiKey (key : Text)
  | binanceOrderBook (tableSymbol : Option Int64) (binanceSymbol : Text)
  | binanceLiveOrders (tableSymbol : Option Int64) (tradeSymbol : Text)
  | binanceOhlc (tableSymbol : Option Int64) (time tradeSymbol : Text)
deriving DecidableEq, Repr

/-! ### CREATE HFT TABLE -/

/-- A column of `parseHFTCreateStatement`; the precision is cast to an `int16_t`. -/
def hftColumn : TokenParser ColumnDefinition := do
  let colName ← expect .identifier "Expected column name"
  let typeToken ← expect .double "ONLY SUPPORT DOUBLE"
  let _ ← expect .precision "use keyword precision after double"
  let bitToken ← expect .number "expected bit precision to be a number"
  let bits ← stoi bitToken.value
  return { name := colName.value, type := typeToken.value, precision := (Int16.ofInt bits).toInt }

/-- What follows an element of a list in parentheses, a comma or the end. Without a token there
the message is thrown, or a null pointer is followed. -/
def separator (missing wrong : Fault) : TokenParser Unit := do
  if ← accept .comma then return ()
  else
    match ← get with
    | [] => throw missing
    | token :: _ => if token.type = .closeParen then return () else throw wrong

/-- The loop over the columns. Every round takes a token. -/
def hftColumns : Nat → TokenParser (List ColumnDefinition)
  | 0 => return []
  | rounds + 1 => do
      if ← accept .closeParen then return []
      else
        let column ← hftColumn
        separator .undefined (.runtimeError "Expected ',' or ')' in column list".toList)
        return column :: (← hftColumns rounds)

/-- The aggregates, and what is expected behind each. -/
def aggregates : List (TokenType × List String) :=
  [(.mean, ["expected time value after mean", "expected column index after time"]),
    (.stddev, ["expected time value after stddev", "expected column index after time"]),
    (.max, ["expected time value after max", "expected column index after time"]),
    (.min, ["expected time value after min", "expected column index after time"]),
    (.count, ["expected time value after count", "expected column index after time",
      "expected threshold value after column index"]),
    (.meanN, ["Expect n after mean_n", "Expect column index after n"]),
    (.stddevN, ["Expect n after stddev_n", "Expect column index after n"]),
    (.maxN, ["Expect n after max_n", "Expect column index after n"]),
    (.minN, ["Expect n after min_n", "Expect column index after n"]),
    (.countN, ["EXpected n after count_n", "Expect column index after n",
      "Expect threshold value after column index"])]

/-- The numbers of an aggregate, which nothing reads. -/
def aggregateNumbers : List String → TokenParser Unit
  | [] => return ()
  | message :: messages => do
      let token ← expect .number message
      let _ ← stoi token.value
      aggregateNumbers messages

/-- The loop over the aggregates. Every round takes a token. -/
def aggregateList : Nat → TokenParser Unit
  | 0 => return ()
  | rounds + 1 => do
      if ← accept .closeParen then return ()
      else
        match (← get).head?.bind fun token => aggregates.lookup token.type with
        | none => throw (.runtimeError "Unexpected keyword found".toList)
        | some messages => do
            modify List.tail
            aggregateNumbers messages
            aggregateList rounds

/-- `parseHFTCreateStatement`. The exception for a symbol above 99 is made and not thrown. -/
def parseHFTCreateStatement (currentDb : Option Text) : TokenParser HftStatement := do
  if currentDb = none then
    throw (.runtimeError "No database selected. Use USE <db_name>;".toList)
  let _ ← expect .hft "Expected HFT KEYWORD"
  let _ ← expect .table "Expected TABLE KEYWORD"
  let tableName ← expect .identifier "Expected table name"
  let _ ← expect .openParen "Expected '(' after table name"
  let columns ← hftColumns ((← get).length + 1)
  let _ ← expect .symbol "use the symbol keyword\n"
  let sym ← expect .number "the symbol should be a number"
  let symbol ← stoi sym.value
  if ← accept .aggregates then
    let _ ← expect .openParen "Expected '(' after AGGREGATES"
    aggregateList ((← get).length + 1)
  match ← get with
  | [] => throw .undefined
  | curr :: _ =>
      if curr.type ≠ .semicolon then
        let _ ← expect .top "expected top variable for best bid and best ask price"
        return .createHft tableName.value columns symbol true
      else return .createHft tableName.value columns symbol false

/-! ### Indicators and strategies -/

/-- The parameters in parentheses, if there are any. Every round takes a token. -/
def parameterList : Nat → TokenParser (List Text)
  | 0 => return []
  | rounds + 1 => do
      if ← accept .closeParen then return []
      else
        let val ← expect .string "expect argument to be string"
        let wrong := Fault.runtimeError "Parse error: expect ',' or ')' in parameter list".toList
        separator wrong wrong
        return val.value :: (← parameterList rounds)

def parameters : TokenParser (List Text) := do
  if ← accept .openParen then parameterList ((← get).length + 1)
  else return []

/-- `parseAddIndicatorOnTableStatement`; behind a minus the column is -1. -/
def parseAddIndicatorOnTableStatement : TokenParser HftStatement := do
  let _ ← expect .add "expect Token type add"
  let _ ← expect .indicator "expect token type indictor"
  let indicator ← expect .string "expect indicator name as string"
  let params ← parameters
  let _ ← expect .onT "expect token ON after indicator"
  let _ ← expect .symbol "expect token type symbol"
  let symbol ← expect .number "expect symbol to be int"
  let _ ← expect .columnNo "expect token COLUMN_NO"
  let minus ← accept .minus
  let column ← expect .number "expect a number"
  let _ ← expect .ticks "expect token type ticks "
  let tick ← expect .number "expect tick number\n"
  let _ ← expect .semicolon "expect token ;"
  return .addIndicator indicator.value params (fromChars symbol.value)
    (if minus then some (-1) else fromChars column.value) (fromChars tick.value)

/-- `parseAddStrategystatement`; the column is not used. -/
def parseAddStrategystatement : TokenParser HftStatement := do
  let _ ← expect .enable "expect token type enable"
  let _ ← expect .strategy "expect token type strategy"
  let name ← expect .string "the strategy name should be string"
  let params ← parameters
  let _ ← expect .onT "expect token type ON"
  let _ ← expect .symbol "expect token type symbol"
  let symbol ← expect .number "expect token type number"
  let _ ← expect .columnNo "expect toekn type column_no"
  let _ ← expect .number "expect column type number"
  let _ ← expect .ticks "expect token type ticks"
  let tick ← expect .number "token type tick should be number"
  let _ ← expect .semicolon "expect token type semi colon"
  return .enableStrategy name.value params (fromChars symbol.value) (fromChars tick.value)

def parseFetchIndicatorStatement : TokenParser HftStatement := do
  let _ ← expect .fetch "expect token type fetch"
  let _ ← expect .indicator "expect token type indicator"
  let _ ← expect .fromT "expect token type from"
  let _ ← expect .hft "expect token type hft"
  let _ ← expect .symbol "expect token type symbol"
  let token ← expect .number "the symbol should be no"
  return .fetchIndicator (fromChars token.value)

/-! ### SET BINANCE -/

def parseBinanceApiKeyStatement : TokenParser HftStatement := do
  let _ ← expect .set "expect token type set"
  let _ ← expect .binance "expect token type binance"
  let _ ← expect .apiKey "exepect token type api key\n"
  let key ← expect .string "expect api key \n"
  let _ ← expect .semicolon "expect token type semi colon"
  return .binanceApiKey key.value

def parseBinanceOrderBookStatement : TokenParser HftStatement := do
  let _ ← expect .set "expect token type set"
  let _ ← expect .binance "expect token type binance"
  let _ ← expect .orderBook "expect token type binance order book"
  let _ ← expect .onT "expect token type on"
  let _ ← expect .symbol "expect token type symbol"
  let tableSymbol ← expect .number "the table symbol should be a number"
  let _ ← expect .symbol "expect token type symbol"
  let binanceSymbol ← expect .string "expect biance symbol to be a token"
  return .binanceOrderBook (fromChars tableSymbol.value) binanceSymbol.value

def parserBinanceLiveOrdersStatements : TokenParser HftStatement := do
  let _ ← expect .set "expect token type set"
  let _ ← expect .binance "expect token type binance"
  let _ ← expect .data "expect token type data"
  let _ ← expect .feed "expect token type feed"
  let _ ← expect .live "expect token type live"
  let _ ← expect .orders "expect token type orders"
  let _ ← expect .onT "expect token type on"
  let _ ← expect .symbol "expect token type symbol"
  let symbol ← expect .number "expect token type number"
  let _ ← expect .symbol "expect token type symbol for binance\n"
  let binanceSymbol ← expect .string "expect symbol to be a string"
  return .binanceLiveOrders (fromChars symbol.value) binanceSymbol.value

def parseBinanceLiveOhlcStatement : TokenParser HftStatement := do
  let _ ← expect .set "expect token type set"
  let _ ← expect .binance "expect token type binance"
  let _ ← expect .data "expect token type data"
  let _ ← expect .feed "expect token type feed"
  let _ ← expect .ohlc "expect token type ohlc"
  let time ← expect .string "expect time to be string"
  let _ ← expect .onT "expect token type on"
  let _ ← expect .symbol "expect token type symbol"
  let symbol ← expect .number "expect token type number"
  let _ ← expect .symbol "expect TokeTypeSymbol"
  let binance ← expect .string "binance symbol should be string"
  return .binanceOhlc (fromChars symbol.value) time.value binance.value

/-! ### The choice of a statement -/

/-- The branches of `parse` for these statements; `none` for the others. -/
def hftBranch (currentDb : Option Text) (tokens : List Token) :
    TokenParser (Option (TokenParser HftStatement)) := do
  if ← accept .create then
    if ← accept .hft then return some (do set tokens.tail; parseHFTCreateStatement currentDb)
    else return none
  else if ← accept .set then
    if ← accept .binance then
      if ← accept .apiKey then return some parseBinanceApiKeyStatement
      else if ← accept .orderBook then return some parseBinanceOrderBookStatement
      else if ← acceptAll [.data, .feed, .live] then return some parserBinanceLiveOrdersStatements
      else if ← accept .ohlc then return some parseBinanceLiveOhlcStatement
      else return none
    else return none
  else if ← accept .enable then
    if ← accept .strategy then return some parseAddStrategystatement else return none
  else if ← accept .fetch then
    if ← accept .indicator then return some parseFetchIndicatorStatement else return none
  else if ← accept .add then
    if ← accept .indicator then return some parseAddIndicatorOnTableStatement else return none
  else return none

/-- `parse` on the tokens of one of these statements, which is read from its first token on. -/
def parse (currentDb : Option Text) (tokens : List Token) : Except Fault (Option HftStatement) := do
  match ← (hftBranch currentDb tokens).run tokens with
  | (none, _) => return none
  | (some statement, _) =>
      let (stmt, _) ← statement.run tokens
      return some stmt

end NanoVault.Sql
